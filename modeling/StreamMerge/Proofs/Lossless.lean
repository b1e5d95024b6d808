import StreamMerge.Proofs.Coherence
import StreamMerge.Proofs.Events
import StreamMerge.Strategy.Interleave

/-!
# Nothing is lost on the way in

Between two steps, whatever has happened so far, what the source of an inlet has yielded is what the strategy
was handed of it, in the same order, followed by the element that the inlet keeps. Only a release drops that one
element.
-/
namespace StreamMerge

variable {α β : Type} {L : Strategy α β} {u : Source α}

namespace Merge

variable {settings : Settings} {sources : List u.State} {m : Merge L u}

theorem play_balanced (hm : setUp L u settings sources = .ok m) (moves : List (Move u)) :
    ((Session.start m).play moves).merge.Balanced :=
  play_induction hm (fun _ _ h => h.balanced) (fun _ _ h hb => hb.acts h.acts) moves

theorem play_coherent (hm : setUp L u settings sources = .ok m) (moves : List (Move u)) :
    ((Session.start m).play moves).merge.Coherent :=
  play_induction hm (fun _ _ h => h.coherent) (fun _ _ h hc => h.coherent hc) moves

/-- What holds of a merge as it is set up and is kept by every change of a balanced and coherent merge, holds after
every play. -/
theorem play_invariant {motive : Merge L u → Prop} (hm : setUp L u settings sources = .ok m) (start : motive m)
    (change : ∀ {m m' : Merge L u}, Change m m' → m.Balanced → m.Coherent → motive m → motive m')
    (moves : List (Move u)) : motive ((Session.start m).play moves).merge := by
  have hfresh := setUp_fresh hm
  have hall := (Session.play_changes moves (Session.start m)).induction
    (motive := fun m => m.Balanced ∧ m.Coherent ∧ motive m)
    (fun _ _ h ⟨hb, hc, hi⟩ => ⟨hb.acts h.acts, h.coherent hc, change h hb hc hi⟩)
    ⟨hfresh.balanced, hfresh.coherent, start⟩
  exact hall.2.2

theorem play_lastWord (hm : setUp L u settings sources = .ok m) (moves : List (Move u)) :
    ((Session.start m).play moves).merge.LastWord :=
  play_invariant hm (setUp_fresh hm).lastWord (fun h hb _ hw => hw.change h hb) moves

/-- The strategy is handed an element only of an inlet that is open and that its present state chooses. -/
theorem Step.hands {m m' : Merge L u} (h : Step m m') (hb : m.Balanced) (hc : m.Coherent) :
    Extends (fun e => ∀ p x source target, e = .onElement p x source target →
      m.inletIs p (·.isOpen) = true ∧ source = m.state ∧ p ∈ (L.choice m.memory m.state).inlets) m m' := by
  rcases h.aside_or_tries with ha | htry
  · refine ha.history.mono fun e he p x s t heq => ?_
    subst heq
    cases he
  · rcases htry.serves hb with hx | ⟨choice, k, a, reads, outcome, hs⟩
    · refine hx.mono fun e he p x s t heq => ?_
      subst heq
      cases he
    · refine ⟨_, hs.history.trans (List.append_assoc ..), fun e he p x s t heq => ?_⟩
      subst heq
      rcases List.mem_append.1 he with he | he
      · exact absurd rfl (hs.not_concerns_reads he p)
      · rcases List.mem_cons.1 he with heq | he
        · cases heq
        · rcases List.mem_append.1 he with he | he
          · cases a with
            | element y =>
              have heq := Option.some.inj (Option.mem_toList.1 he)
              cases heq
              obtain ⟨order, q, hst, hp, hq, ha, -⟩ := hs.found
              have hf := hc.fits
              rw [hst] at hf
              obtain ⟨-, -, rfl, rfl, -⟩ := hf
              exact ⟨hs.isOpen, rfl, (Choice.mem_readingOrder.1 (mem_of_seek hp hq ha rfl)).1⟩
            | completed => exact absurd ((concerns_handling he rfl).2 rfl) id
            | failed c => exact absurd ((concerns_handling he rfl).2 rfl) id
          · exact absurd rfl (Entry.not_concerns_of_isOutcome (hs.isOutcome _ he) p)

end Merge

/-- Nothing is lost, doubled or reordered on the way into the merge of a session. -/
structure Session.Lossless (s : Session L u) : Prop where
  /-- What the source of an inlet that is not released has yielded was handed over, but for what is kept. -/
  conserved : ∀ (p : InletId) (q : Inlet u), s.merge.inlets[p]? = some q → q.status ≠ .cancelled →
    s.merge.yielded p = s.merge.handed p ++ q.kept.toList
  /-- Of a released inlet, one element at most is missing. -/
  released : ∀ (p : InletId) (q : Inlet u), s.merge.inlets[p]? = some q → q.status = .cancelled →
    ∃ lost : Option α, s.merge.yielded p = s.merge.handed p ++ lost.toList
  /-- The next step hands over an element only of an open inlet that the present state reads from. -/
  chosen : s.merge.awake = true → ∀ es, s.merge.step.history = s.merge.history ++ es →
    ∀ p x source target, .onElement p x source target ∈ es →
      s.merge.inletIs p (·.isOpen) = true ∧ source = s.merge.state ∧
        p ∈ (L.choice s.merge.memory s.merge.state).inlets
  /-- The end or a failure of an inlet came once at most, after everything that its source yielded was handed
  over, and only the call about it followed. -/
  lastWord : ∀ pre c p a post, s.merge.history = pre ++ .arrived c p a :: post → a.isTerminal = true →
    s.merge.inletIs p (·.isOpen) = false ∧
    pre.filterMap (Entry.yielded? p) = pre.filterMap (Entry.handed? p) ∧
    ∀ e ∈ post, e.concerns p → e.isLastCall p ∧ post.head? = some e
  /-- Whatever follows, nothing concerns an inlet that has ended or was released. -/
  silent : ∀ p, s.merge.inletIs p (·.isOpen) = false → ∀ later : List (Move u),
    ∃ es, (s.play later).merge.history = s.merge.history ++ es ∧ ∀ e ∈ es, ¬ e.concerns p

/-- **No loss on the way in.** For every strategy, all sources and every order of moves: at every point between
two steps, everything that a source has yielded was handed to the strategy once and in order, but for the one
element that its inlet keeps. -/
theorem Session.play_lossless {settings : Settings} {sources : List u.State} {m : Merge L u}
    (hm : Merge.setUp L u settings sources = .ok m) (moves : List (Move u)) :
    ((Session.start m).play moves).Lossless := by
  have hb := Merge.play_balanced hm moves
  have hc := Merge.play_coherent hm moves
  have hw := Merge.play_lastWord hm moves
  refine ⟨fun p q hq hs => (hb p q hq).settled hs, fun p q hq hs => (hb p q hq).released hs, ?_, hw, ?_⟩
  · intro _ es hes p x s t he
    obtain ⟨es', hes', hok⟩ := (Merge.step_spec _).hands hb hc
    obtain rfl := List.append_cancel_left (hes.symm.trans hes')
    exact hok _ he p x s t rfl
  · intro p hp later
    exact (play_changes later _).extends_closed hb hp

/-- Two sources under the fair strategy; the credit ends when the second one still has an element. -/
theorem Session.play_lossless_fair : ∃ m,
    Merge.setUp (Strategy.fair Nat) (scripted Nat) .standard [.ofList [1, 3], .ofList [2, 4]] = .ok m ∧
    ((Session.start m).play [.request 3, .poll 40]).Lossless ∧
    ((Session.start m).play [.request 3, .poll 40]).merge.handed 0 = [1, 3] := by
  have hm : Merge.setUp (Strategy.fair Nat) (scripted Nat) .standard [.ofList [1, 3], .ofList [2, 4]] = .ok _ :=
    rfl
  exact ⟨_, hm, play_lossless hm _, by decide⟩

end StreamMerge
