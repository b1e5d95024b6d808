import StreamMerge.Proofs.Course
import StreamMerge.Proofs.Supply
import StreamMerge.Strategy.Alternate

/-!
# Alternation does not depend on timing

Under strict alternation the consumer gets the elements of the two sources in turn, and what is left of the one when
the other has ended, whatever the sources and the consumer do and when (`Session.Staged.alternates`). The invariant
`InTurn` says what is still to come, given what the two inlets still bring.
-/
namespace StreamMerge

open Strategy

variable {α : Type} {u : Source α}

/-! ## Alternating lists -/

/-- The elements of two lists in turn, and then what is left of the longer one. -/
def alternating : List α → List α → List α
  | [], ys => ys
  | x :: xs, ys => x :: alternating ys xs
termination_by xs ys => xs.length + ys.length

@[simp] theorem alternating_nil (ys : List α) : alternating [] ys = ys := by unfold alternating; rfl

@[simp] theorem alternating_cons (x : α) (xs ys : List α) :
    alternating (x :: xs) ys = x :: alternating ys xs := by
  conv_lhs => unfold alternating

@[simp] theorem alternating_nil_right (xs : List α) : alternating xs [] = xs := by
  cases xs <;> simp

/-- What is emitted from a state on, if the inlets still bring `r₀` and `r₁`. When one input is read alone, the other
brings nothing more. -/
def Strategy.AlternateState.outlook (r₀ r₁ : List α) : AlternateState → List α
  | .first => alternating r₀ r₁
  | .second => alternating r₁ r₀
  | .drain _ => r₀ ++ r₁

@[simp] theorem Strategy.AlternateState.outlook_nil_left (r : List α) (s : AlternateState) : s.outlook [] r = r := by
  cases s <;> simp [outlook]

@[simp] theorem Strategy.AlternateState.outlook_nil_right (r : List α) (s : AlternateState) : s.outlook r [] = r := by
  cases s <;> simp [outlook]

namespace Merge

/-! ## The invariant -/

variable {m m' : Merge (alternate α) u}

/-- Whatever the inlets still bring: what was emitted and what is to come is what was handed over and what is still
brought, in turn. -/
def Alternated (m : Merge (alternate α) u) : Prop :=
  ∀ r₀ r₁, (m.status? 0 = some .completed → r₀ = []) → (m.status? 1 = some .completed → r₁ = []) →
    m.emissions ++ m.state.outlook r₀ r₁ = alternating (m.handed 0 ++ r₀) (m.handed 1 ++ r₁)

/-- When an inlet is read alone, the other one has come to its end. -/
def Drained (m : Merge (alternate α) u) : Prop :=
  ∀ p, m.state = .drain p → m.status? (otherInlet p) = some .completed

/-- The invariant of strict alternation. -/
structure InTurn (m : Merge (alternate α) u) : Prop where
  alternated : m.Alternated
  drained : m.Drained
  patient : m.policy ≠ .eager
  open_ended : m.stage.closing = false
  unreleased : m.stage.isFinal = false → ∀ p, m.status? p ≠ some .cancelled
  ended : m.verdict? = some (.ok .completed) → ∀ p t, m.status? p = some t → t ≠ .live ∧ t ≠ .cancelled

/-- Nothing is handed over and nothing is emitted, and what has come to its end stays there. -/
theorem Alternated.mono (h : m.Alternated) (hs : m'.state = m.state) (hh : ∀ p, m'.handed p = m.handed p)
    (he : m'.emissions = m.emissions)
    (hc : ∀ p, m.status? p = some .completed → m'.status? p = some .completed) : m'.Alternated := by
  intro r₀ r₁ h₀ h₁
  rw [hs, hh, hh, he]
  exact h r₀ r₁ (fun h => h₀ (hc 0 h)) fun h => h₁ (hc 1 h)

theorem Drained.mono (h : m.Drained) (hs : m'.state = m.state)
    (hc : ∀ p, m.status? p = some .completed → m'.status? p = some .completed) : m'.Drained :=
  fun p hp => hc _ (h p (hs ▸ hp))

theorem InTurn.keeps (hi : m.InTurn) (h : Keeps m m') : m'.InTurn := by
  have hcomp : ∀ p, m.status? p = some .completed → m'.status? p = some .completed :=
    fun p hp => (h.status p).completed_iff.2 hp
  refine ⟨hi.alternated.mono h.state h.handed h.emissions hcomp, hi.drained.mono h.state hcomp,
    h.policy ▸ hi.patient, ?_, fun hr p => ?_, fun hv p t ht => ?_⟩
  · cases hr : m'.stage.isFinal with
    | false => rw [h.closing hr, hi.open_ended]
    | true => exact closing_of_isFinal hr
  · rw [(h.status p).running hr]
    exact hi.unreleased (h.running hr) p
  · have hended : ∀ t, m.status? p = some t → t ≠ .live ∧ t ≠ .cancelled := by
      rcases h.verdict _ hv with hv | ⟨m₁, hends⟩
      · exact hi.ended hv p
      · refine fun t ht => ⟨fun hl => ?_, fun hc => hi.unreleased hends.isFinal p (hc ▸ ht)⟩
        cases hends with
        | completed closing hst _ hco =>
          have hclosing := hi.open_ended
          rw [hst] at hclosing
          rcases hco with hco | hco
          · rw [show closing = false from hclosing] at hco
            cases hco
          · exact ne_live_of_openInlets hco p (hl ▸ ht)
    rcases h.status p with hs | ⟨-, hs⟩
    · exact hended t (hs.symm.trans ht)
    · obtain ⟨t', ht', rfl⟩ := Option.map_eq_some_iff.1 (hs.symm.trans ht)
      obtain ⟨hl, hc⟩ := hended t' ht'
      cases t' <;> first | exact absurd rfl hl | exact absurd rfl hc | simp [InletStatus.release]

/-- Only what concerns the lists has to be shown when an event is handled that does not end the merge normally. -/
theorem InTurn.handled {p : InletId} {a : Arrival α} (hi : m.InTurn) (h : Handles m p a m')
    (ho : Obeys m p a (m.transition p a) m')
    (hr : (Effects.ofActions (m.transition p a).actions).releases = [])
    (hclose : (Effects.ofActions (m.transition p a).actions).closing ≠ some .complete)
    (hpol : m'.policy ≠ .eager) (halt : m'.Alternated) (hdr : m'.Drained) : m'.InTurn := by
  have hst := ho.stage
  have hstatus := ho.status hr
  refine ⟨halt, hdr, hpol, ?_, fun hrun k hk => ?_, fun hv => ?_⟩
  · rw [hst]
    cases hc : (Effects.ofActions (m.transition p a).actions).closing with
    | none => rfl
    | some c =>
      cases c with
      | complete => exact absurd hc hclose
      | fail e => rfl
  · rw [(hstatus k).running hrun] at hk
    split at hk
    · cases a <;> cases hk
    · exact hi.unreleased h.running k hk
  · rw [stage_of_verdict? hv] at hst
    cases hc : (Effects.ofActions (m.transition p a).actions).closing with
    | none => rw [hc] at hst; cases hst
    | some c =>
      cases c with
      | complete => exact absurd hc hclose
      | fail e => rw [hc] at hst; cases hst

theorem InTurn.element {p : InletId} {x : α} (hi : m.InTurn) (htwo : m.inlets.length = 2)
    (h : Handles m p (.element x) m') : m'.InTurn := by
  have ho := h.obeys rfl
  have hp : p = m.state.inlet := by simpa [Choice.inlets] using h.chosen rfl
  have hcomp := h.completed_mono (ho.status rfl)
  have hs : m'.state = m.state.afterElement := ho.state
  have he : m'.emissions = m.emissions ++ [x] := h.emissions
  refine hi.handled h ho rfl (by simp [transition, Effects.ofActions, Effects.add, Effects.empty])
    (by rw [ho.policy]; exact hi.patient) (fun r₀ r₁ h₀ h₁ => ?_) (fun k hk => ?_)
  · have hlive : m.status? p ≠ some .completed := by rw [inletIs_isOpen_iff.1 h.isOpen]; simp
    have h₀' : m.status? 0 = some .completed → r₀ = [] := fun hc => h₀ (hcomp 0 hc)
    have h₁' : m.status? 1 = some .completed → r₁ = [] := fun hc => h₁ (hcomp 1 hc)
    rw [hs, he, h.handed 0, h.handed 1]
    cases hst : m.state with
    | first =>
      rw [hst] at hp
      obtain rfl : p = 0 := hp
      have := hi.alternated (x :: r₀) r₁ (fun hc => absurd hc hlive) h₁'
      rw [hst] at this
      simpa [AlternateState.outlook, AlternateState.afterElement, Arrival.element?] using this
    | second =>
      rw [hst] at hp
      obtain rfl : p = 1 := hp
      have := hi.alternated r₀ (x :: r₁) h₀' (fun hc => absurd hc hlive)
      rw [hst] at this
      simpa [AlternateState.outlook, AlternateState.afterElement, Arrival.element?] using this
    | drain k =>
      rw [hst] at hp
      obtain rfl : p = k := hp
      have hother := hi.drained p hst
      have hp : p < 2 := htwo ▸ lt_of_isOpen h.isOpen
      obtain rfl | rfl := Nat.le_one_iff_eq_zero_or_eq_one.1 (Nat.le_of_lt_succ hp)
      · have := hi.alternated (x :: r₀) r₁ (fun hc => absurd hc hlive) h₁'
        rw [hst] at this
        simpa [AlternateState.outlook, AlternateState.afterElement, Arrival.element?] using this
      · obtain rfl := h₀' hother
        have := hi.alternated [] (x :: r₁) (fun _ => rfl) (fun hc => absurd hc hlive)
        rw [hst] at this
        simpa [AlternateState.outlook, AlternateState.afterElement, Arrival.element?] using this
  · have hst : m.state = .drain k := by
      rw [hs] at hk
      cases hst : m.state <;> rw [hst] at hk <;> first | exact hk | cases hk
    exact hcomp _ (hi.drained k hst)

/-- An end or a failure after which the strategy stays in its state. -/
theorem InTurn.stays {p : InletId} {a : Arrival α} (hi : m.InTurn) (h : Handles m p a m') (ht : a.isTerminal = true)
    (actions : List (Action α AlternateKey)) (htr : m.transition p a = m.remain actions)
    (hacts : actions = [] ∨ ∃ e, actions = [.fail e]) : m'.InTurn := by
  have hfx : (Effects.ofActions actions).emittedTwice = false ∧ (Effects.ofActions actions).emission = none ∧
      (Effects.ofActions actions).releases = [] ∧ (Effects.ofActions actions).policy = none ∧
      (Effects.ofActions actions).closing ≠ some .complete := by
    rcases hacts with rfl | ⟨e, rfl⟩ <;> simp [Effects.ofActions, Effects.add, Effects.empty]
  obtain ⟨hone, hem, hrel, hpol, hclose⟩ := hfx
  have hremain : (m.transition p a).actions = actions := by rw [htr]; rfl
  have ho := h.obeys (by rw [hremain]; exact hone)
  have hcomp := h.completed_mono (ho.status (by rw [hremain]; exact hrel))
  have hs : m'.state = m.state := ho.state.trans (by rw [htr]; rfl)
  have he : m'.emissions = m.emissions := by
    rw [h.emissions, Transition.emission?, hremain, hone, hem]
    exact List.append_nil _
  exact hi.handled h ho (by rw [hremain]; exact hrel) (by rw [hremain]; exact hclose)
    (by rw [ho.policy, hremain, hpol]; exact hi.patient)
    (hi.alternated.mono hs (h.handed_of_terminal ht) he hcomp) (hi.drained.mono hs hcomp)

/-- The first end, after which the other input is read alone. -/
theorem InTurn.drains {p : InletId} (hi : m.InTurn) (htwo : m.inlets.length = 2) (h : Handles m p .completed m')
    (htr : m.transition p .completed = ⟨[.follow .exhaust], .drain (otherInlet p), ()⟩) : m'.InTurn := by
  have hacts : (m.transition p .completed).actions = [.follow .exhaust] := by rw [htr]
  have ho := h.obeys (by rw [hacts]; rfl)
  have hstatus := ho.status (by rw [hacts]; rfl)
  have hcomp := h.completed_mono hstatus
  have hhere : m'.status? p = some .completed := (hstatus p).completed_iff.2 (if_pos rfl)
  have hh := h.handed_of_terminal rfl
  have he : m'.emissions = m.emissions := by
    rw [h.emissions, Transition.emission?, hacts]
    exact List.append_nil _
  have hs : m'.state = .drain (otherInlet p) := ho.state.trans (by rw [htr])
  have hp : p < 2 := htwo ▸ lt_of_isOpen h.isOpen
  refine hi.handled h ho (by rw [hacts]; rfl) (by rw [hacts]; simp [Effects.ofActions, Effects.add, Effects.empty])
    (by rw [ho.policy, hacts]; simp [Effects.ofActions, Effects.add]) (fun r₀ r₁ h₀ h₁ => ?_) (fun k hk => ?_)
  · rw [hs, hh, hh, he]
    obtain rfl | rfl := Nat.le_one_iff_eq_zero_or_eq_one.1 (Nat.le_of_lt_succ hp)
    · obtain rfl := h₀ hhere
      have := hi.alternated [] r₁ (fun _ => rfl) fun hc => h₁ (hcomp 1 hc)
      rw [AlternateState.outlook_nil_left] at this ⊢
      exact this
    · obtain rfl := h₁ hhere
      have := hi.alternated r₀ [] (fun hc => h₀ (hcomp 0 hc)) fun _ => rfl
      rw [AlternateState.outlook_nil_right] at this ⊢
      exact this
  · rw [hs] at hk
    obtain rfl := AlternateState.drain.inj hk
    obtain rfl | rfl := Nat.le_one_iff_eq_zero_or_eq_one.1 (Nat.le_of_lt_succ hp)
    · exact hhere
    · exact hhere

theorem InTurn.handles {p : InletId} {a : Arrival α} (hi : m.InTurn) (htwo : m.inlets.length = 2)
    (h : Handles m p a m') : m'.InTurn := by
  cases a with
  | element x => exact hi.element htwo h
  | completed =>
    cases hpol : m.policy with
    | eager => exact absurd hpol hi.patient
    | exhaust => exact hi.stays h rfl [] (by unfold transition; rw [hpol]) (Or.inl rfl)
    | custom key => exact hi.drains htwo h (by unfold transition; rw [hpol])
  | failed c =>
    refine hi.stays h rfl [.fail (.sourceFailed c)] ?_ (Or.inr ⟨_, rfl⟩)
    unfold transition
    cases m.policy <;> rfl

theorem inTurn_setUp {settings : Settings} {sources : List u.State}
    (h : setUp (alternate α) u settings sources = .ok m) : m.InTurn := by
  have hfresh := setUp_fresh h
  obtain ⟨-, hs, hp⟩ := setUp_start h
  refine ⟨fun r₀ r₁ _ _ => ?_, fun p hd => ?_, by rw [hp]; simp, by rw [hfresh.stage]; rfl, fun _ p hc => ?_,
    fun hv => ?_⟩
  · unfold emissions handed
    rw [hs, hfresh.history]
    rfl
  · rw [hs] at hd
    cases hd
  · rw [hfresh.status? (isSome_status?.1 (by rw [hc]; rfl))] at hc
    cases hc
  · rw [verdict?_of_isFinal (by rw [hfresh.stage]; rfl)] at hv
    cases hv

end Merge

/-! ## Strict alternation -/

/-- What a session of strict alternation over sources with `xs` and `ys` ahead delivers. -/
structure Session.Alternates (s : Session (Strategy.alternate α) u) (xs ys : List α) : Prop where
  /-- At every moment it is the beginning of the two lists in turn, -/
  ordered : s.merge.sent <+: alternating xs ys
  /-- and all of it when the run was completed. -/
  complete : s.merge.verdict? = some (.ok .completed) → s.merge.sent = alternating xs ys
  /-- So two completed runs over the same elements deliver the same, whatever their sources are. -/
  agrees : ∀ {v : Source α} {w : v.Forecast} {s' : Session (Strategy.alternate α) v}, s'.Staged w [xs, ys] →
    s.merge.verdict? = some (.ok .completed) → s'.merge.verdict? = some (.ok .completed) →
    s.merge.sent = s'.merge.sent

namespace Session

variable {w : u.Forecast} {xs ys : List α} {s : Session (Strategy.alternate α) u}

theorem Staged.inTurn (h : s.Staged w [xs, ys]) : s.merge.InTurn :=
  h.course (fun hm _ => Merge.inTurn_setUp hm) (fun h _ hi => hi.keeps h) fun h htwo hi => hi.handles htwo h

/-- What is emitted is the beginning of the two lists in turn, and all of it when both inlets have come to their
end. -/
theorem Staged.emissions_alternate (h : s.Staged w [xs, ys]) :
    s.merge.emissions <+: alternating xs ys ∧
      (s.merge.verdict? = some (.ok .completed) → s.merge.emissions = alternating xs ys) := by
  have hi := h.inTurn
  obtain ⟨r₀, rfl, h₀⟩ := h.rest (p := 0) rfl
  obtain ⟨r₁, rfl, h₁⟩ := h.rest (p := 1) rfl
  rw [← hi.alternated r₀ r₁ (fun hc => h₀ _ hc (by simp) (by simp)) fun hc => h₁ _ hc (by simp) (by simp)]
  refine ⟨List.prefix_append _ _, fun hv => ?_⟩
  obtain ⟨t₀, ht₀⟩ := Option.isSome_iff_exists.1 (h.isSome_status? (p := 0) (by simp))
  obtain ⟨t₁, ht₁⟩ := Option.isSome_iff_exists.1 (h.isSome_status? (p := 1) (by simp))
  obtain ⟨hl₀, hc₀⟩ := hi.ended hv 0 t₀ ht₀
  obtain ⟨hl₁, hc₁⟩ := hi.ended hv 1 t₁ ht₁
  rw [h₀ t₀ ht₀ hl₀ hc₀, h₁ t₁ ht₁ hl₁ hc₁, AlternateState.outlook_nil_left, List.append_nil]

/-- **Strict alternation is independent of timing.** For sources of every kind, whenever they are ready, and every
order of moves. -/
theorem Staged.alternates (h : s.Staged w [xs, ys]) : s.Alternates xs ys := by
  obtain ⟨hinitial, hall⟩ := h.emissions_alternate
  have hf := h.forthright
  have hcomplete : s.merge.verdict? = some (.ok .completed) → s.merge.sent = alternating xs ys :=
    fun hv => (hf.completed h.coherent hv).trans (hall hv)
  refine ⟨hf.sent_initial.trans hinitial, hcomplete, fun h' hv hv' => ?_⟩
  rw [hcomplete hv, h'.forthright.completed h'.coherent hv', h'.emissions_alternate.2 hv']

/-- The second source has nothing at first and ends before the first one, of which the rest then follows. -/
theorem alternates_scripted : ∃ m,
    Merge.setUp (Strategy.alternate Nat) (scripted Nat) .standard
      [.ofList [1, 3, 4], .ofItems [.pend 1, .element 2]] = .ok m ∧
    ((start m).play [.request 9, .poll 60, .poll 60]).Alternates [1, 3, 4] [2] ∧
    ((start m).play [.request 9, .poll 60, .poll 60]).merge.verdict? = some (.ok .completed) ∧
    ((start m).play [.request 9, .poll 60, .poll 60]).merge.sent = [1, 2, 3, 4] := by
  have hm : Merge.setUp (Strategy.alternate Nat) (scripted Nat) .standard
      [.ofList [1, 3, 4], .ofItems [.pend 1, .element 2]] = .ok _ := rfl
  refine ⟨_, hm, Staged.alternates (w := Script.forecast Nat) (.play hm ?_ ?_), by decide, by decide⟩
  · exact .cons rfl (.cons rfl .nil)
  · simp [Source.Forecast.Spares]

end Session
end StreamMerge
