import StreamMerge.Proofs.Course

/-!
# The route of a run

What a run did at which point of a play is said of its route: the states from which it took its steps, in order.
`Merge.Travels` goes along a route one step at a time, and everything else that happens is between two steps
(`Merge.Outer`); every play of a session travels along its route (`Session.play_travels`).
-/
namespace StreamMerge

variable {α β : Type} {L : Strategy α β} {u : Source α}

namespace Merge

/-! ## Between two steps -/

/-- A change that is no step: the run stands where it stood, or was given up. -/
structure Outer (m m' : Merge L u) : Prop where
  change : Change m m'
  stage : m'.stage = m.stage ∨ m'.stage = .abandoned
  status : m'.stage = m.stage → ∀ p, m'.status? p = m.status? p

theorem outer_rouse {m : Merge L u} (h : m.stage.isFinal = false) :
    Outer m { m with awake := true, link := m.link.heed } :=
  ⟨.rouse m h, Or.inl rfl, fun _ _ => rfl⟩

theorem outer_relink {m : Merge L u} {k : Link β} (h : m.link.Around k) : Outer m { m with link := k } :=
  ⟨.relink m k h, Or.inl rfl, fun _ _ => rfl⟩

theorem outer_adjust {m : Merge L u} {p : InletId} {q : Inlet u} {s : u.State} (hq : m.inlets[p]? = some q)
    (hs : q.source = some s) (s' : u.State) :
    Outer m { m with inlets := m.inlets.set p { q with source := some s' } } := by
  refine ⟨.adjust m p q s s' hq hs, Or.inl rfl, fun _ k => ?_⟩
  rw [status?_set hq rfl]
  split
  · rename_i hk
    rw [hk, status?, hq]
    rfl
  · rfl

theorem outer_abandon {m : Merge L u} (h : m.stage.isFinal = false) :
    Outer m { m.releaseAll with stage := .abandoned, awake := false, link := m.releaseAll.link.detach } := by
  refine ⟨.abandon m h, Or.inr rfl, fun hst => ?_⟩
  have hst : Stage.abandoned = m.stage := hst
  rw [← hst] at h
  cases h

section
variable {m m' : Merge L u}

/-- No run ends between two steps with a verdict. -/
theorem Outer.verdict? (h : Outer m m') {v : Verdict} (hv : m'.verdict? = some v) :
    m'.stage = m.stage ∧ m.verdict? = some v := by
  have hst := stage_of_verdict? hv
  rcases h.stage with hs | hs
  · refine ⟨hs, ?_⟩
    rw [Merge.verdict?, ← hs, hst]
  · rw [hst] at hs
    cases hs

theorem Outer.closing (h : Outer m m') (hc : m'.stage.closing = true) : m.stage.closing = true := by
  rcases h.stage with hs | hs
  · rw [← hs]
    exact hc
  · rw [hs] at hc
    cases hc

theorem Outer.running (h : Outer m m') (hr : m'.stage.isFinal = false) : m'.stage = m.stage := by
  rcases h.stage with hs | hs
  · exact hs
  · rw [hs] at hr
    cases hr

end

/-! ## Routes -/

/-- The states from which the run takes its steps while it advances, in order. -/
def route : Nat → Merge L u → List (Merge L u)
  | 0, _ => []
  | fuel + 1, m => if m.awake && !m.stage.isFinal then m :: route fuel m.step else []

/-- Along the route `ms`, the run comes from `m` to a state. -/
inductive Travels (m : Merge L u) : List (Merge L u) → Merge L u → Prop
  | start : Travels m [] m
  | outer {ms : List (Merge L u)} {m₁ m₂ : Merge L u} : Travels m ms m₁ → Outer m₁ m₂ → Travels m ms m₂
  | step {ms : List (Merge L u)} {m₁ : Merge L u} : Travels m ms m₁ → m₁.awake = true →
      m₁.stage.isFinal = false → Travels m (ms ++ [m₁]) m₁.step

section
variable {m m' : Merge L u} {ms : List (Merge L u)}

theorem Travels.changes (h : Travels m ms m') : Changes m m' := by
  induction h with
  | start => exact .refl
  | outer _ ho ih => exact ih.tail ho.change
  | step _ ha _ ih => exact ih.tail (.step _ ha)

theorem Travels.advance : ∀ (fuel : Nat) {m m' : Merge L u} {ms : List (Merge L u)}, Travels m ms m' →
    Travels m (ms ++ m'.route fuel) (m'.advance fuel)
  | 0, m, m', ms, h => by
    rw [route, List.append_nil]
    exact h
  | fuel + 1, m, m', ms, h => by
    rw [route]
    by_cases hgo : m'.awake = true ∧ m'.stage.isFinal = false
    · have hrest := Travels.advance fuel (h.step hgo.1 hgo.2)
      rw [List.append_assoc] at hrest
      simpa [Merge.advance, hgo.1, hgo.2] using hrest
    · have hstay : m'.advance (fuel + 1) = m' := by
        by_cases ha : m'.awake = true
        · exact advance_of_isFinal (by simpa [ha] using hgo) _
        · exact advance_of_asleep (eq_false_of_ne_true ha) _
      rw [if_neg (by simpa using hgo), List.append_nil, hstay]
      exact h

end

end Merge

namespace Session

/-- The states from which the run takes its steps with a move, in order. -/
def strides (s : Session L u) : Move u → List (Merge L u)
  | .poll fuel => Merge.route fuel { s.merge with awake := true, link := s.merge.link.heed }
  | _ => []

/-- The states from which the run takes its steps in the course of a play, in order. -/
def route (s : Session L u) : List (Move u) → List (Merge L u)
  | [] => []
  | mv :: moves => s.strides mv ++ (s.perform mv).route moves

theorem strides_of_ne_poll {s : Session L u} {mv : Move u} (h : ∀ fuel, mv ≠ .poll fuel) : s.strides mv = [] := by
  cases mv with
  | poll fuel => exact absurd rfl (h fuel)
  | _ => rfl

variable {m : Merge L u} {ms : List (Merge L u)}

theorem poll_travels {s : Session L u} (h : m.Travels ms s.merge) (fuel : Nat) :
    m.Travels (ms ++ s.strides (.poll fuel)) (s.perform (.poll fuel)).merge := by
  show m.Travels (ms ++ Merge.route fuel { s.merge with awake := true, link := s.merge.link.heed })
    (s.merge.poll fuel)
  unfold Merge.poll
  cases hf : s.merge.stage.isFinal with
  | true =>
    have hnone : Merge.route fuel { s.merge with awake := true, link := s.merge.link.heed } = [] := by
      cases fuel <;> simp [Merge.route, hf]
    rw [if_pos rfl, hnone, List.append_nil]
    exact h
  | false =>
    rw [if_neg Bool.false_ne_true]
    exact Merge.Travels.advance fuel (h.outer (Merge.outer_rouse hf))

theorem perform_travels {s : Session L u} (h : m.Travels ms s.merge) (mv : Move u) :
    m.Travels (ms ++ s.strides mv) (s.perform mv).merge := by
  by_cases hp : ∃ fuel, mv = .poll fuel
  · obtain ⟨fuel, rfl⟩ := hp
    exact poll_travels h fuel
  · rw [strides_of_ne_poll fun fuel hmv => hp ⟨fuel, hmv⟩, List.append_nil]
    cases s.performs mv with
    | link k hm ha =>
      rw [hm]
      exact h.outer (Merge.outer_relink ha.around)
    | source p woken f q state k _ hq hs hm ha =>
      rw [hm]
      exact (h.outer (Merge.outer_adjust hq hs (f state))).outer (Merge.outer_relink ha.around)
    | poll fuel hmv => exact absurd ⟨fuel, hmv⟩ hp
    | abandon hmv =>
      subst hmv
      show m.Travels ms s.merge.abandon
      unfold Merge.abandon
      cases hf : s.merge.stage.isFinal with
      | true => exact h
      | false => exact h.outer (Merge.outer_abandon hf)

/-- **A play travels along its route.** -/
theorem play_travels : ∀ (moves : List (Move u)) {s : Session L u} {m : Merge L u} {ms : List (Merge L u)},
    m.Travels ms s.merge → m.Travels (ms ++ s.route moves) (s.play moves).merge
  | [], s, m, ms, h => by
    rw [route, List.append_nil]
    exact h
  | mv :: moves, s, m, ms, h => by
    rw [route, ← List.append_assoc]
    exact play_travels moves (perform_travels h mv)

end Session
end StreamMerge
