import StreamMerge.Proofs.Collecting
import StreamMerge.Proofs.Withdrawal

/-!
# Runs that are past changing

Once somebody has cancelled, or the run is over, nobody can change its course any more by sending signals. What signals
can still leave in a merge is taken out of it by `Merge.trim`: those behind the first cancellation, and the reason to
poll the run that each of them is. Every step of such a run is the same without them (`Merge.Doomed.step_trim`).
-/
namespace StreamMerge

variable {α β : Type} {L : Strategy α β} {u : Source α}

/-! ## What no longer counts -/

/-- The signals up to the first cancellation. -/
def upToCancel : List Signal → List Signal
  | [] => []
  | .request n :: rest => .request n :: upToCancel rest
  | .cancel :: _ => [.cancel]

theorem upToCancel_append {more : List Signal} : ∀ {signals : List Signal}, .cancel ∈ signals →
    upToCancel (signals ++ more) = upToCancel signals
  | [], h => by cases h
  | .cancel :: _, _ => rfl
  | .request n :: rest, h => by
    have hrest : .cancel ∈ rest := by simpa using h
    exact congrArg (Signal.request n :: ·) (upToCancel_append hrest)

theorem upToCancel_upToCancel : ∀ signals : List Signal, upToCancel (upToCancel signals) = upToCancel signals
  | [] => rfl
  | .cancel :: _ => rfl
  | .request n :: rest => congrArg (Signal.request n :: ·) (upToCancel_upToCancel rest)

theorem cancel_mem_upToCancel : ∀ {signals : List Signal}, .cancel ∈ signals → .cancel ∈ upToCancel signals
  | [], h => by cases h
  | .cancel :: _, _ => List.mem_singleton_self _
  | .request n :: rest, h => by
    have hrest : .cancel ∈ rest := by simpa using h
    exact List.mem_cons_of_mem _ (cancel_mem_upToCancel hrest)

namespace Link

/-- The link without what is behind the first cancellation, and without a reason to poll the run. -/
def trim (k : Link β) : Link β := { k with signals := upToCancel k.signals, woken := false }

/-- Nothing that is sent from now on is ever taken: there is no run any more, or a cancellation comes first. -/
def Spent (k : Link β) : Prop := k.attached = false ∨ .cancel ∈ k.signals

@[simp] theorem trim_trim (k : Link β) : k.trim.trim = k.trim := by
  unfold trim
  rw [upToCancel_upToCancel]

theorem trim_join (k : Link β) : k.trim.join.trim = k.join.trim := by
  simp [trim, join, upToCancel_upToCancel]

theorem trim_leave (k : Link β) : k.trim.leave.trim = k.leave.trim := by
  simp [trim, leave, upToCancel_upToCancel]

theorem trim_wake (k : Link β) : k.trim.wake.trim = k.wake.trim := by
  simp [trim, wake, upToCancel_upToCancel]

theorem trim_taken (k : Link β) (rest : List (Delivery β)) :
    ({ k.trim with deliveries := rest } : Link β).trim = ({ k with deliveries := rest } : Link β).trim := by
  simp [trim, upToCancel_upToCancel]

theorem Spent.trimmed {k : Link β} (h : k.Spent) : k.trim.Spent := h.imp_right cancel_mem_upToCancel

theorem Spent.trim_send {k : Link β} (h : k.Spent) (s : Signal) : (k.send s).trim = k.trim := by
  unfold send
  split
  · rename_i ha
    rcases h with h | h
    · rw [h] at ha
      cases ha
    · unfold trim
      rw [upToCancel_append h]
  · rfl

theorem Spent.send {k : Link β} (h : k.Spent) (s : Signal) : (k.send s).Spent := by
  unfold Link.send
  split
  · exact h.imp_right (List.mem_append_left [s])
  · exact h

end Link

namespace Merge

/-- The merge with another link. -/
def withLink (m : Merge L u) (k : Link β) : Merge L u := { m with link := k }

/-- The merge without what no longer counts in its link. -/
def trim (m : Merge L u) : Merge L u := m.withLink m.link.trim

/-! ## Where the link does not matter -/

theorem apart_withLink (k : Link β) : Apart fun m : Merge L u => m.withLink k :=
  ⟨fun _ => rfl, fun _ _ => rfl, fun _ _ => rfl⟩

theorem releaseAll_withLink (m : Merge L u) (k : Link β) : (m.withLink k).releaseAll = m.releaseAll.withLink k :=
  ((apart_withLink k).releaseAll m).symm

theorem link_releaseAll (m : Merge L u) : m.releaseAll.link = m.link := by
  have h : m.releaseAll = m.releaseAll.withLink m.link := releaseAll_withLink m m.link
  rw [h]
  rfl

/-- The end of a run does not depend on signals. -/
theorem finish_signals (m : Merge L u) (signals : List Signal) (woken : Bool) (v : Verdict) :
    (m.withLink { m.link with signals, woken }).finish v = m.finish v := by
  have hi : (m.withLink { m.link with signals, woken }).inlets = m.inlets := rfl
  rw [finish_eq, finish_eq, releaseAll_withLink, hi]
  generalize m.inlets.countP (·.source.isSome) = n
  have hlink := link_releaseAll m
  generalize m.releaseAll = r at hlink ⊢
  rw [← hlink]
  cases hr : r.link.receiving <;> cases v with
  | ok outcome => cases outcome <;> simp [announce, deliver, Link.deliver, log, note, Link.detach, withLink, hr]
  | error e => simp [announce, deliver, Link.deliver, log, note, Link.detach, withLink, hr]

@[simp] theorem finish_trim (m : Merge L u) (v : Verdict) : m.trim.finish v = m.finish v :=
  finish_signals m (upToCancel m.link.signals) false v

/-- At the end of a run nothing is left to be trimmed. -/
@[simp] theorem trim_finish (m : Merge L u) (v : Verdict) : (m.finish v).trim = m.finish v := by
  rw [finish_eq]
  rfl

/-! ## Steps -/

/-- Signals are taken in the same way, as a cancellation comes before what is trimmed. -/
theorem hear_trim {m : Merge L u} (h : .cancel ∈ m.link.signals) (quiet quiet' : Merge L u → Merge L u) :
    (m.hear quiet).trim = m.trim.hear quiet' := by
  have hs : m.trim.link.signals = upToCancel m.link.signals := rfl
  unfold hear
  rw [hs]
  cases hsig : m.link.signals with
  | nil =>
    rw [hsig] at h
    cases h
  | cons s rest =>
    cases s with
    | request n => rfl
    | cancel =>
      refine (trim_finish _ _).trans ?_
      have hrest := finish_signals ({ m with link := { m.link with signals := rest } }.note (.took .cancel)) [] false
        (.ok .cancelled)
      exact hrest.symm

theorem choose_trim (m : Merge L u) : m.choose.trim = m.trim.choose := by
  have hc : L.choice m.trim.memory m.trim.state = L.choice m.memory m.state := rfl
  have hn : m.trim.inlets = m.inlets := rfl
  have ho : (L.choice m.memory m.state).readingOrder m.trim.turn (m.trim.inletIs · (·.isOpen)) =
      (L.choice m.memory m.state).readingOrder m.turn (m.inletIs · (·.isOpen)) := rfl
  unfold choose
  dsimp only
  rw [hc, hn, ho]
  split
  · rw [trim_finish, finish_trim]
  · split
    · rw [trim_finish, ← finish_trim]
      rfl
    · rfl

/-- **A step of a run that was cancelled is the same without what no longer counts.** -/
theorem Doomed.step_trim {m : Merge L u} (hd : m.Doomed) (hc : m.Coherent) : m.step.trim = m.trim.step := by
  cases hf : m.stage.isFinal with
  | true =>
    have hf' : m.trim.stage.isFinal = true := hf
    rw [step_of_isFinal hf, step_of_isFinal hf']
  | false =>
    have hcancel : .cancel ∈ m.link.signals := by
      rcases hd with h | h
      · rw [hf] at h
        cases h
      · exact h
    have hst' : m.trim.stage = m.stage := rfl
    unfold step
    rw [hst']
    cases hst : m.stage with
    | unpolled => rfl
    | settling closing =>
      have hu : m.trim.unsent = m.unsent := rfl
      have ho : m.trim.openInlets = m.openInlets := rfl
      dsimp only
      rw [hu, ho]
      split
      · rfl
      · split
        · rw [trim_finish, finish_trim]
        · rfl
    | draining aim => exact hear_trim hcancel _ _
    | awaiting aim =>
      cases aim with
      | read =>
        have hcredit : m.trim.credit = m.credit := rfl
        dsimp only
        rw [hcredit]
        split
        · exact choose_trim m
        · exact hear_trim hcancel _ _
      | deliver closing => exact absurd hst hc.not_awaiting_deliver
    | attempting choice order => exact hear_trim hcancel _ _
    | ended verdict => rfl
    | abandoned => rfl

/-! ## Polls -/

/-- What is past changing: the run was cancelled or is over, and takes no more signals when it is over. -/
structure Decided (m : Merge L u) : Prop where
  doomed : m.Doomed
  coherent : m.Coherent
  detached : m.Detached

theorem Change.isDecided {m m' : Merge L u} (h : Change m m') (hm : m.Decided) : m'.Decided :=
  ⟨(h.doomed hm.doomed hm.coherent).1, h.coherent hm.coherent, h.detached hm.detached⟩

theorem Changes.isDecided {m m' : Merge L u} (h : Changes m m') (hm : m.Decided) : m'.Decided :=
  h.induction (motive := Decided) (fun _ _ h hm => h.isDecided hm) hm

theorem Decided.spent {m : Merge L u} (hm : m.Decided) : m.link.Spent := by
  rcases hm.doomed with hf | hc
  · exact Or.inl (hm.detached hf)
  · exact Or.inr hc

theorem advance_trim : ∀ (fuel : Nat) {m : Merge L u}, m.Decided → (m.advance fuel).trim = m.trim.advance fuel
  | 0, _, _ => rfl
  | fuel + 1, m, hm => by
    have ha : m.trim.awake = m.awake := rfl
    unfold advance
    rw [ha]
    split
    · rename_i hawake
      rw [advance_trim fuel ((Change.step m hawake).isDecided hm), hm.doomed.step_trim hm.coherent]
    · rfl

/-- **A poll of a run that was cancelled is the same without what no longer counts.** -/
theorem Decided.poll_trim {m : Merge L u} (hm : m.Decided) (fuel : Nat) : (m.poll fuel).trim = m.trim.poll fuel := by
  have hst : m.trim.stage = m.stage := rfl
  unfold poll
  rw [hst]
  split
  · rfl
  · rename_i hf
    exact advance_trim fuel ((Change.rouse m (eq_false_of_ne_true hf)).isDecided hm)

theorem abandon_trim (m : Merge L u) : m.abandon.trim = m.trim.abandon := by
  have hst : m.trim.stage = m.stage := rfl
  have hr : m.trim.releaseAll = m.releaseAll.withLink m.link.trim := releaseAll_withLink m m.link.trim
  unfold abandon
  rw [hst, hr, ← link_releaseAll m]
  split <;> rfl

end Merge

end StreamMerge
