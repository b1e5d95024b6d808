import StreamMerge.Proofs.Waiting
import StreamMerge.Proofs.Withdrawal
import StreamMerge.Strategy.Rules

/-!
# Cancellation

How does the next poll end a suspended run that was cancelled? A run that has not started, or that waits for its
sources, takes all signals before it does anything else, and so comes to the cancellation whatever was sent before it
(`Merge.advance_cancelled`). A run that waits for credit takes signals only up to the first credit, and then asks its
strategy what to read: if there is an objection to that, the run fails with it, and the cancellation behind the credit
is never seen (`Session.play_cancelled_iff`).
-/
namespace StreamMerge

variable {α β : Type} {L : Strategy α β} {u : Source α}

/-- Credit comes before the first cancellation. -/
def creditFirst : List Signal → Bool
  | .request n :: rest => n ≠ 0 || creditFirst rest
  | _ => false

/-- The run takes all signals before it does anything else. -/
def Stage.isListening : Stage → Bool
  | .draining _ | .attempting .. => true
  | _ => false

/-- A run can be suspended here: it has not started, waits for credit to read on, waits for its sources, or is over. -/
def Stage.isSuspension : Stage → Bool
  | .unpolled | .awaiting .read | .attempting .. | .ended _ | .abandoned => true
  | _ => false

namespace Merge

/-! ## Objections -/

/-- Why the run cannot read on as it stands: what the present state chooses is refused, or no inlet of it is open. -/
def objection? (m : Merge L u) : Option MergeError :=
  match (L.choice m.memory m.state).check m.inlets.length with
  | some violation => some (.protocol violation)
  | none =>
    if (L.choice m.memory m.state).readingOrder m.turn (m.inletIs · (·.isOpen)) = [] then
      some (.protocol (.namesOnlyTerminated (L.showState m.state) m.openInlets))
    else none

/-- The objection that comes before the cancellation in the queue: the run waits for credit to read on, and this
credit comes first. -/
def lateObjection? (m : Merge L u) : Option MergeError :=
  match m.stage with
  | .awaiting .read => if creditFirst m.link.signals then m.objection? else none
  | _ => none

/-! ## Verdicts -/

/-- The run of `m` came to its end in `m'` with the verdict `v`, and nothing was delivered but what this verdict has
to say. -/
structure EndsAs (m : Merge L u) (v : Verdict) (m' : Merge L u) : Prop where
  verdict : m'.verdict? = some v
  sends : Sends m m' (if m.link.receiving then (farewell v).toList else [])

theorem EndsAs.of_sends {m m₁ m' : Merge L u} {v : Verdict} (h : EndsAs m₁ v m') (hs : Sends m m₁ []) :
    EndsAs m v m' := by
  refine ⟨h.verdict, ?_⟩
  have hd := hs.trans h.sends
  rw [hs.receiving] at hd
  exact hd

theorem endsAs_finish {m m₁ : Merge L u} (hs : Sends m m₁ []) (v : Verdict) : EndsAs m v (m₁.finish v) := by
  refine EndsAs.of_sends ⟨?_, sends_finish m₁ v⟩ hs
  unfold verdict?
  rw [(finish_spec m₁ v).stage]

/-- The end of a run stays as it is. -/
theorem EndsAs.advance {m m' : Merge L u} {v : Verdict} (h : EndsAs m v m') (fuel : Nat) :
    EndsAs m v (m'.advance fuel) := by
  rw [advance_of_isFinal (isFinal_of_verdict? h.verdict)]
  exact h

/-! ## Taking signals -/

/-- The merge after a request of `n` was taken, with `rest` behind it. -/
def credited (m : Merge L u) (n : Nat) (rest : List Signal) : Merge L u :=
  { m with credit := m.credit.grant n, link := { m.link with signals := rest } }.note (.took (.request n))

theorem sends_credited (m : Merge L u) (n : Nat) (rest : List Signal) : Sends m (m.credited n rest) [] :=
  .of_extends (extends_note _ (e := .took (.request n)) rfl) rfl rfl

theorem hear_request {m : Merge L u} {n : Nat} {rest : List Signal} (hs : m.link.signals = .request n :: rest)
    (quiet : Merge L u → Merge L u) : m.hear quiet = m.credited n rest := by
  unfold hear
  rw [hs]
  rfl

theorem endsAs_hear {m : Merge L u} {rest : List Signal} (hs : m.link.signals = .cancel :: rest)
    (quiet : Merge L u → Merge L u) : EndsAs m (.ok .cancelled) (m.hear quiet) := by
  have htook : Sends m ({ m with link := { m.link with signals := rest } }.note (.took .cancel)) [] :=
    .of_extends (extends_note { m with link := { m.link with signals := rest } } (e := .took .cancel) rfl) rfl rfl
  unfold hear
  rw [hs]
  exact endsAs_finish htook _

theorem step_of_isListening {m : Merge L u} (h : m.stage.isListening = true) : ∃ quiet, m.step = m.hear quiet := by
  unfold step
  cases hst : m.stage with
  | draining aim => exact ⟨_, rfl⟩
  | attempting choice order => exact ⟨_, rfl⟩
  | _ =>
    rw [hst] at h
    cases h

/-- **A run that listens comes to the cancellation**, whatever was signalled before it. -/
theorem advance_cancelled : ∀ {signals : List Signal} {m : Merge L u} {fuel : Nat}, m.link.signals = signals →
    .cancel ∈ signals → m.awake = true → m.stage.isListening = true → signals.length ≤ fuel →
    EndsAs m (.ok .cancelled) (m.advance fuel)
  | [], _, _, _, hc, _, _, _ => by cases hc
  | _ :: _, _, 0, _, _, _, _, hf => absurd hf (Nat.not_succ_le_zero _)
  | .cancel :: rest, m, fuel + 1, hs, _, ha, hl, _ => by
    obtain ⟨quiet, hstep⟩ := step_of_isListening hl
    rw [advance_succ ha, hstep]
    exact (endsAs_hear hs quiet).advance fuel
  | .request n :: rest, m, fuel + 1, hs, hc, ha, hl, hf => by
    obtain ⟨quiet, hstep⟩ := step_of_isListening hl
    have hc : .cancel ∈ rest := by simpa using hc
    rw [advance_succ ha, hstep, hear_request hs]
    exact (advance_cancelled (m := m.credited n rest) rfl hc ha hl (Nat.le_of_succ_le_succ hf)).of_sends
      (sends_credited m n rest)

/-! ## Credit first -/

/-- The verdict of a cancelled run to which there may be an objection. -/
def verdictFor : Option MergeError → Verdict
  | none => .ok .cancelled
  | some e => .error e

/-- An objection ends the run. -/
theorem choose_of_objection {m : Merge L u} {e : MergeError} (h : m.objection? = some e) :
    ∃ m₁, Sends m m₁ [] ∧ m.choose = m₁.finish (.error e) := by
  cases hv : (L.choice m.memory m.state).check m.inlets.length with
  | some violation =>
    simp only [objection?, hv, Option.some.injEq] at h
    subst h
    exact ⟨m, .refl m, by simp only [choose, hv]⟩
  | none =>
    cases ho : (L.choice m.memory m.state).readingOrder m.turn (m.inletIs · (·.isOpen)) with
    | nil =>
      simp only [objection?, hv, ho, if_true, Option.some.injEq] at h
      subst h
      exact ⟨_, .of_extends (extends_note m (e := .logged _) rfl) rfl rfl, by simp only [choose, hv, ho]; rfl⟩
    | cons p ps => simp [objection?, hv, ho] at h

/-- Without an objection the run reads on. -/
theorem choose_of_none {m : Merge L u} (h : m.objection? = none) :
    ∃ choice order, m.choose = { m with stage := .attempting choice order } := by
  cases hv : (L.choice m.memory m.state).check m.inlets.length with
  | some violation => simp [objection?, hv] at h
  | none =>
    cases ho : (L.choice m.memory m.state).readingOrder m.turn (m.inletIs · (·.isOpen)) with
    | nil => simp [objection?, hv, ho] at h
    | cons p ps => exact ⟨L.choice m.memory m.state, p :: ps, by simp only [choose, hv, ho]⟩

/-- A run with credit to read on asks its strategy first: an objection ends it, and otherwise it listens. -/
theorem endsAs_choose {m : Merge L u} {fuel : Nat} (hc : .cancel ∈ m.link.signals) (ha : m.awake = true)
    (hf : m.link.signals.length ≤ fuel) : EndsAs m (verdictFor m.objection?) (m.choose.advance fuel) := by
  cases hobj : m.objection? with
  | some e =>
    obtain ⟨m₁, hs, heq⟩ := choose_of_objection hobj
    rw [heq]
    exact (endsAs_finish hs _).advance fuel
  | none =>
    obtain ⟨choice, order, heq⟩ := choose_of_none hobj
    rw [heq]
    have h := advance_cancelled (m := { m with stage := .attempting choice order }) rfl hc ha rfl hf
    exact h.of_sends ⟨(List.append_nil _).symm, (List.append_nil _).symm, rfl⟩

theorem advance_awaiting {m : Merge L u} {fuel : Nat} (hst : m.stage = .awaiting .read)
    (hcredit : m.credit.isPositive = true) (hc : .cancel ∈ m.link.signals) (ha : m.awake = true)
    (hf : m.link.signals.length + 1 ≤ fuel) : EndsAs m (verdictFor m.objection?) (m.advance fuel) := by
  cases fuel with
  | zero => exact absurd hf (Nat.not_succ_le_zero _)
  | succ fuel =>
    have hstep : m.step = m.choose := by
      unfold step
      rw [hst]
      exact if_pos hcredit
    rw [advance_succ ha, hstep]
    exact endsAs_choose hc ha (Nat.le_of_succ_le_succ hf)

/-- **A run that waits for credit takes signals up to the first credit.** If the cancellation comes first, it ends the
run; otherwise an objection to reading on does, if there is one. -/
theorem advance_starved : ∀ {signals : List Signal} {m : Merge L u} {fuel : Nat}, m.link.signals = signals →
    .cancel ∈ signals → m.awake = true → m.stage = .awaiting .read → m.credit.isPositive = false →
    signals.length + 1 ≤ fuel →
    EndsAs m (verdictFor (if creditFirst signals then m.objection? else none)) (m.advance fuel)
  | [], _, _, _, hc, _, _, _, _ => by cases hc
  | _ :: _, _, 0, _, _, _, _, _, hf => absurd hf (Nat.not_succ_le_zero _)
  | s :: rest, m, fuel + 1, hs, hc, ha, hst, hcredit, hf => by
    have hstep : m.step = m.hear fun m => { m with awake := false } := by
      unfold step
      rw [hst]
      exact if_neg (by rw [hcredit]; exact Bool.false_ne_true)
    rw [advance_succ ha, hstep]
    cases s with
    | cancel => exact (endsAs_hear hs _).advance fuel
    | request n =>
      have hrest : .cancel ∈ rest := by simpa using hc
      have hfuel : rest.length + 1 ≤ fuel := Nat.le_of_succ_le_succ hf
      have hzero : m.credit.remaining = 0 := by simpa [Credit.isPositive] using hcredit
      rw [hear_request hs]
      refine EndsAs.of_sends ?_ (sends_credited m n rest)
      have hobj : (m.credited n rest).objection? = m.objection? := rfl
      have hgrant : (m.credited n rest).credit.remaining = min n Credit.limit := by
        show (m.credit.grant n).remaining = _
        rw [Credit.remaining_grant, hzero, Nat.zero_add]
      by_cases hn : n = 0
      · subst hn
        have hnone : (m.credited 0 rest).credit.isPositive = false := by
          rw [Credit.isPositive, hgrant]
          rfl
        have hfirst : creditFirst (.request 0 :: rest) = creditFirst rest := by simp [creditFirst]
        rw [hfirst]
        exact hobj ▸ advance_starved (m := m.credited 0 rest) rfl hrest ha hst hnone hfuel
      · have hsome : (m.credited n rest).credit.isPositive = true := by
          rw [Credit.isPositive_iff, hgrant]
          have : 0 < Credit.limit := by decide
          omega
        have hfirst : creditFirst (.request n :: rest) = true := by simp [creditFirst, hn]
        rw [if_pos hfirst]
        exact hobj ▸ advance_awaiting (m := m.credited n rest) hst hsome hrest ha hfuel

/-! ## Before the start -/

/-- A run that starts with an inlet open soon listens. -/
theorem advance_unpolled {m : Merge L u} {fuel : Nat} (hm : m.Coherent) (hst : m.stage = .unpolled)
    (hopen : m.openInlets ≠ 0) (hc : .cancel ∈ m.link.signals) (ha : m.awake = true)
    (hf : m.link.signals.length + 2 ≤ fuel) : EndsAs m (.ok .cancelled) (m.advance fuel) := by
  obtain ⟨fuel, rfl⟩ := Nat.exists_eq_add_of_le' hf
  have hunsent : m.unsent = none := by
    have hfit := hm.fits
    rw [hst] at hfit
    exact hfit
  let opened : Merge L u := { (m.log (.opened m.name m.inlets.length)).log (.started m.policy.label) with
    stage := .settling false }
  have hopens : m.step = opened := by
    unfold step
    rw [hst]
  have hturns : opened.step = { opened with stage := .draining .read } := by
    have hu : opened.unsent.isSome = false := by
      show m.unsent.isSome = false
      rw [hunsent]
      rfl
    have ho : opened.openInlets ≠ 0 := hopen
    simp [step, show opened.stage = .settling false from rfl, hu, ho]
  have hsends : Sends m { opened with stage := .draining .read } [] :=
    .of_extends (extends_opening (fun e => e.delivered? = none) m rfl rfl) rfl rfl
  rw [show fuel + (m.link.signals.length + 2) = (fuel + m.link.signals.length) + 1 + 1 from rfl, advance_succ ha, hopens,
    advance_succ (m := opened) ha, hturns]
  exact (advance_cancelled (m := { opened with stage := .draining .read }) rfl hc ha rfl
    (Nat.le_add_left _ _)).of_sends hsends

/-! ## Suspension -/

/-- A run that sleeps is suspended where it can be. -/
def Suspended (m : Merge L u) : Prop := m.awake = false → m.stage.isSuspension = true

theorem Step.suspended {m m' : Merge L u} (h : Step m m') (hm : m.Coherent) (ha : m.awake = true) :
    m'.Suspended := by
  intro ha'
  cases hr : m'.stage.isFinal with
  | true => cases hst : m'.stage <;> first | rfl | (rw [hst] at hr; cases hr)
  | false =>
    rcases h.sleeps ha ha' hr with ⟨aim, hst, -, -, -, rfl⟩ | ⟨choice, order, hst, -, -, -, rfl⟩
    · cases aim with
      | read => exact congrArg Stage.isSuspension hst
      | deliver closing => exact absurd hst hm.not_awaiting_deliver
    · exact congrArg Stage.isSuspension ((frame_seek m order).stage.trans hst)

theorem Change.suspended {m m' : Merge L u} (h : Change m m') (hm : m.Coherent) (hs : m.Suspended) :
    m'.Suspended := by
  cases h with
  | step ha => exact (step_spec m).suspended hm ha
  | rouse => exact fun ha => by cases ha
  | relink => exact hs
  | adjust => exact hs
  | abandon => exact fun _ => rfl

theorem play_suspended {settings : Settings} {sources : List u.State} {m : Merge L u}
    (hm : setUp L u settings sources = .ok m) (moves : List (Move u)) :
    ((Session.start m).play moves).merge.Suspended := by
  have hfresh := setUp_fresh hm
  refine ((Session.play_changes moves (Session.start m)).induction
    (motive := fun m' => m'.Coherent ∧ m'.Suspended)
    (fun _ _ h ⟨hc, hs⟩ => ⟨h.coherent hc, h.suspended hc hs⟩) ⟨hfresh.coherent, fun _ => ?_⟩).2
  show m.stage.isSuspension = true
  rw [hfresh.stage]
  rfl

/-- **The verdict of a run that was cancelled while it was suspended.** -/
theorem poll_endsAs {m : Merge L u} (hm : m.Regular) (hs : m.Suspended) (hasleep : m.awake = false)
    (hrun : m.stage.isFinal = false) (hopen : m.openInlets ≠ 0) (hc : .cancel ∈ m.link.signals) {fuel : Nat}
    (hf : m.link.signals.length + 3 ≤ fuel) : EndsAs m (verdictFor m.lateObjection?) (m.poll fuel) := by
  unfold poll
  rw [if_neg (by rw [hrun]; exact Bool.false_ne_true)]
  have hrouse : Change m { m with awake := true, link := m.link.heed } := .rouse m hrun
  have hsends : Sends m { m with awake := true, link := m.link.heed } [] := .of_extends (.of_eq rfl) rfl rfl
  refine EndsAs.of_sends ?_ hsends
  have hcoherent := hrouse.coherent hm.coherent
  generalize hr : ({ m with awake := true, link := m.link.heed } : Merge L u) = r at hcoherent ⊢
  have hstage : r.stage = m.stage := by rw [← hr]
  have hlate : r.lateObjection? = m.lateObjection? := by rw [← hr]; rfl
  have hcr : .cancel ∈ r.link.signals := by rw [← hr]; exact hc
  have har : r.awake = true := by rw [← hr]
  have hfr : r.link.signals.length + 3 ≤ fuel := by rw [← hr]; exact hf
  have hor : r.openInlets ≠ 0 := by rw [← hr]; exact hopen
  have hsus := hs hasleep
  rw [← hlate]
  unfold lateObjection?
  cases hst : r.stage with
  | unpolled => exact advance_unpolled hcoherent hst hor hcr har (Nat.le_of_succ_le hfr)
  | awaiting aim =>
    cases aim with
    | read =>
      have hcredit : r.credit.isPositive = false := by
        rw [← hr]
        exact hm.dozes hasleep .read (hstage.symm.trans hst)
      exact advance_starved rfl hcr har hst hcredit (by omega)
    | deliver closing => exact absurd hst hcoherent.not_awaiting_deliver
  | attempting choice order =>
    exact advance_cancelled rfl hcr har (congrArg Stage.isListening hst) (by omega)
  | ended verdict =>
    rw [← hstage, hst] at hrun
    cases hrun
  | abandoned =>
    rw [← hstage, hst] at hrun
    cases hrun
  | settling closing =>
    rw [← hstage, hst] at hsus
    cases hsus
  | draining aim =>
    rw [← hstage, hst] at hsus
    cases hsus

end Merge

/-! ## Cancelled or failed -/

namespace Session

/-- **When cancellation is not an error.** Let a run be suspended and unfinished with an inlet open, and let a
cancellation be in the queue of its signals, whatever else is in it. The next poll ends the run as cancelled, without
delivering anything, exactly if no objection to reading on comes before the cancellation; such an objection ends the
run as an error, which is delivered to a consumer that still receives. -/
theorem play_cancelled_iff {settings : Settings} {sources : List u.State} {m : Merge L u}
    (hm : Merge.setUp L u settings sources = .ok m) (moves : List (Move u))
    (hasleep : ((start m).play moves).merge.awake = false)
    (hrun : ((start m).play moves).merge.stage.isFinal = false)
    (hopen : ((start m).play moves).merge.openInlets ≠ 0)
    (hcancel : .cancel ∈ ((start m).play moves).merge.link.signals) (fuel : Nat)
    (hfuel : ((start m).play moves).merge.link.signals.length + 3 ≤ fuel) :
    let before := ((start m).play moves).merge
    let after := before.poll fuel
    (after.verdict? = some (.ok .cancelled) ∧ before.Sends after [] ↔ before.lateObjection? = none) ∧
    ∀ e, before.lateObjection? = some e → after.verdict? = some (.error e) ∧
      before.Sends after (if before.link.receiving then [.error e] else []) := by
  have h := Merge.poll_endsAs (Merge.play_regular hm moves) (Merge.play_suspended hm moves) hasleep hrun hopen
    hcancel hfuel
  dsimp only
  cases hobj : ((start m).play moves).merge.lateObjection? with
  | none =>
    rw [hobj] at h
    have hsends := h.sends
    rw [show (Merge.farewell (Merge.verdictFor none) : Option (Delivery β)) = none from rfl, Option.toList_none,
      ite_self] at hsends
    exact ⟨⟨fun _ => rfl, fun _ => ⟨h.verdict, hsends⟩⟩, fun e he => by cases he⟩
  | some e =>
    rw [hobj] at h
    refine ⟨⟨fun ⟨hv, _⟩ => ?_, fun he => by cases he⟩, fun e' he => ?_⟩
    · rw [h.verdict] at hv
      cases hv
    · cases he
      exact ⟨h.verdict, h.sends⟩

/-- The fair strategy never objects: a run that waits for credit, which has come since, is cancelled. -/
theorem play_cancelled_iff_fair : ∃ m,
    Merge.setUp (Strategy.fair Nat) (scripted Nat) .standard [.ofList [1, 2], .ofList [3]] = .ok m ∧
    ((start m).play [.request 1, .poll 40, .request 5, .cancel]).merge.awake = false ∧
    ((start m).play [.request 1, .poll 40, .request 5, .cancel]).merge.stage = .awaiting .read ∧
    ((start m).play [.request 1, .poll 40, .request 5, .cancel]).merge.openInlets = 2 ∧
    ((start m).play [.request 1, .poll 40, .request 5, .cancel]).merge.link.signals = [.request 5, .cancel] ∧
    (((start m).play [.request 1, .poll 40, .request 5, .cancel]).merge.poll 5).verdict? =
      some (.ok .cancelled) ∧
    ((start m).play [.request 1, .poll 40, .request 5, .cancel]).merge.Sends
      (((start m).play [.request 1, .poll 40, .request 5, .cancel]).merge.poll 5) [] := by
  have hm : Merge.setUp (Strategy.fair Nat) (scripted Nat) .standard [.ofList [1, 2], .ofList [3]] = .ok _ := rfl
  have h := (play_cancelled_iff hm [.request 1, .poll 40, .request 5, .cancel] rfl rfl (by decide) (by decide) 5
    (by decide)).1.2 rfl
  exact ⟨_, hm, rfl, rfl, rfl, rfl, h.1, h.2⟩

end Session

/-! ### Credit before the cancellation

A strategy that reads from its first inlet until that has brought an element, and then gives it up. When all credit is
used up, the run waits for more, with the second inlet open and nothing to read. -/

/-- A strategy that passes on an element of the inlet `p` and gives the inlet up. -/
def oneElement (p : InletId) : RuleTable where
  name := "OneElement"
  start := 0
  policy := .exhaust
  handles := .all
  states := [(.one p, ⟨[], [.emitElement, .releaseSelf]⟩)]
  policies := []
  governsEnds := false

/-- The run is suspended with an inlet open; credit is granted, and then the consumer cancels. The next poll fails. -/
theorem Session.play_cancelled_fails : ∃ m,
    Merge.setUp (oneElement 0).strategy (scripted String) .standard [.ofList ["a"], .ofList ["b"]] = .ok m ∧
    let s := (start m).play [.request 1, .poll 40, .drain, .request 1, .cancel]
    s.merge.awake = false ∧ s.merge.stage.isFinal = false ∧ s.merge.openInlets ≠ 0 ∧
    .cancel ∈ s.merge.link.signals ∧ s.merge.link.signals.length + 3 ≤ 40 ∧
    (s.merge.poll 40).verdict? = some (.error (.protocol (.namesOnlyTerminated "Node(0)" 1))) ∧
    (s.merge.poll 40).link.deliveries = [.error (.protocol (.namesOnlyTerminated "Node(0)" 1))] := by
  exact ⟨_, rfl, rfl, rfl, by decide, by decide, by decide, rfl, rfl⟩

end StreamMerge
