import StreamMerge.Proofs.Collecting
import StreamMerge.Proofs.Promptness

/-!
# What a merge goes by

A merge never looks at its name, at what it has logged or at the deliveries that wait for its consumer. `Merge.gist` is
the merge without them: a step of a merge is, in the gist, the step of its gist (`Merge.gist_step`). Merges with one
gist have, step for step, one bare run in the gist, and where this run ends they have the same to show for it
(`Merge.Heads.collection_eq`).
-/
namespace StreamMerge

variable {α β : Type} {L : Strategy α β} {u : Source α}

/-- The entry is a record of the log. -/
def Entry.isLogged : Entry L → Bool
  | .logged _ => true
  | _ => false

namespace Link

/-- The link without the deliveries that wait. -/
def unqueued (k : Link β) : Link β := { k with deliveries := [] }

theorem unqueued_send (k : Link β) (s : Signal) : (k.send s).unqueued = k.unqueued.send s := by
  obtain ⟨signals, senders, attached, deliveries, receiving, woken⟩ := k
  cases attached <;> rfl

theorem unqueued_deliver (k : Link β) (d : Delivery β) : (k.deliver d).unqueued = k.unqueued := by
  unfold deliver
  split <;> rfl

end Link

namespace Merge

/-- The merge without its name, its log and the deliveries that wait. -/
def gist (m : Merge L u) : Merge L u :=
  { m with
    name := ""
    tracing := false
    link := m.link.unqueued
    journal := (m.history.filter (!·.isLogged)).toArray }

/-! ## Forgetting -/

theorem history_gist (m : Merge L u) : m.gist.history = m.history.filter (!·.isLogged) := by simp [gist, history]

@[simp] theorem gist_gist (m : Merge L u) : m.gist.gist = m.gist := by
  show ({ m.gist with journal := (m.gist.history.filter (!·.isLogged)).toArray } : Merge L u) = m.gist
  rw [history_gist, List.filter_filter]
  simp only [Bool.and_self]
  rfl

@[simp] theorem sent_gist (m : Merge L u) : m.gist.sent = m.sent := by
  have hd : m.gist.deliveries = m.deliveries := by
    rw [deliveries, history_gist, List.filterMap_filter]
    refine List.filterMap_congr fun e _ => ?_
    cases e <;> rfl
  rw [sent, hd, sent]

theorem gist_note (m : Merge L u) {e : Entry L} (h : e.isLogged = false) : (m.note e).gist = m.gist.note e := by
  have hj : (m.note e).history.filter (!·.isLogged) = m.history.filter (!·.isLogged) ++ [e] := by simp [h]
  show ({ m.gist with journal := ((m.note e).history.filter (!·.isLogged)).toArray } : Merge L u) = _
  rw [hj, ← List.push_toArray]
  rfl

@[simp] theorem gist_log (m : Merge L u) (r : Record) : (m.log r).gist = m.gist := by
  have hj : (m.log r).history.filter (!·.isLogged) = m.history.filter (!·.isLogged) := by simp [Entry.isLogged]
  show ({ m.gist with journal := ((m.log r).history.filter (!·.isLogged)).toArray } : Merge L u) = m.gist
  rw [hj]
  rfl

theorem apart_gist : Apart (gist : Merge L u → Merge L u) :=
  ⟨fun _ => rfl, fun _ _ => rfl, fun m _ => gist_note m rfl⟩

/-- A change that comes to the same in the gist. -/
theorem gist_congr {f : Merge L u → Merge L u} (hf : ∀ m, (f m).gist = (f m.gist).gist) {m m' : Merge L u}
    (h : m.gist = m'.gist) : (f m).gist = (f m').gist := by
  rw [hf m, hf m', h]

/-! ## The end of a run -/

theorem gist_deliver (m : Merge L u) (d : Delivery β) : (m.deliver d).gist = (m.gist.deliver d).gist := by
  have hr : m.gist.link.receiving = m.link.receiving := rfl
  have hlink : ∀ m : Merge L u, ({ m with link := m.link.deliver d } : Merge L u).gist = m.gist := fun m =>
    congrArg (fun k : Link β => { m.gist with link := k }) (m.link.unqueued_deliver d)
  unfold deliver
  dsimp only
  rw [hr]
  split
  · rw [gist_note _ rfl, gist_note _ rfl, hlink, hlink, gist_gist]
  · rw [hlink, hlink, gist_gist]

theorem gist_announce (m : Merge L u) (n : Nat) (v : Verdict) :
    (m.announce n v).gist = (m.gist.announce n v).gist := by
  unfold announce
  split
  · rw [gist_log, gist_log, gist_deliver]
  · rw [gist_log, gist_log, gist_gist]
  · exact gist_congr (fun m => gist_deliver m _) (by rw [gist_log, gist_log, gist_gist])

theorem gist_finish (m : Merge L u) (v : Verdict) : (m.finish v).gist = (m.gist.finish v).gist := by
  have hend : ∀ m : Merge L u, ({ m with stage := .ended v, awake := false, link := m.link.detach } : Merge L u).gist =
      { m.gist with stage := .ended v, awake := false, link := m.gist.link.detach } := fun _ => rfl
  rw [finish_eq, finish_eq, hend, hend, ← apart_gist.releaseAll, gist_announce]
  rfl

/-! ## Reading -/

theorem gist_call (p : InletId) : ∀ (n : Nat) (m : Merge L u), m.gist.call p n = (m.call p n).gist
  | 0, _ => rfl
  | n + 1, m => by
    have hs : ({ m.gist with link := m.gist.link.send .cancel } : Merge L u) =
        ({ m with link := m.link.send .cancel } : Merge L u).gist :=
      congrArg (fun k : Link β => { m.gist with link := k }) (m.link.unqueued_send .cancel).symm
    unfold call
    rw [hs, ← gist_note _ rfl]
    exact gist_call p n _

theorem gist_fill (m : Merge L u) (p : InletId) : m.gist.fill p = (m.fill p).gist := by
  have hi : m.gist.inlets = m.inlets := rfl
  unfold fill
  rw [hi]
  split
  · rfl
  · split
    · rfl
    · rename_i r q _
      have hnote : (({ m.gist with inlets := m.inlets.set p q } : Merge L u).call p r.cancels).note
          (.polled p r.reply) = ((({ m with inlets := m.inlets.set p q } : Merge L u).call p r.cancels).note
            (.polled p r.reply)).gist := by
        rw [gist_note _ rfl, ← gist_call]
        rfl
      dsimp only
      rw [hnote]
      split <;> rfl

theorem gist_fillUntil (test : Inlet u → Bool) : ∀ (ps : List InletId) (m : Merge L u),
    fillUntil test ps m.gist = ((fillUntil test ps m).1, (fillUntil test ps m).2.gist)
  | [], _ => rfl
  | p :: ps, m => by
    have hi : (m.fill p).gist.inletIs p test = (m.fill p).inletIs p test := rfl
    unfold fillUntil
    dsimp only
    rw [gist_fill, hi]
    split
    · rfl
    · exact gist_fillUntil test ps (m.fill p)

theorem gist_seek (m : Merge L u) (order : List InletId) :
    m.gist.seek order = ((m.seek order).1, (m.seek order).2.gist) := by
  have his : ∀ test : Inlet u → Bool, (m.gist.inletIs · test) = (m.inletIs · test) := fun _ => rfl
  have hids : m.gist.inletIds = m.inletIds := rfl
  have hby : m.gist.bystanders order = m.bystanders order := rfl
  unfold seek
  rw [his, his, hids, hby, gist_fillUntil]
  split
  · rfl
  · split
    · rfl
    · rcases fillUntil (·.hasTerminal) (m.bystanders order) m with ⟨_ | p, n⟩
      · exact gist_fillUntil _ order n
      · rfl

theorem gist_attempt (m : Merge L u) (order : List InletId) :
    m.gist.attempt order = ((m.attempt order).1, (m.attempt order).2.gist) := by
  unfold attempt
  rw [gist_seek]
  rcases m.seek order with ⟨_ | p, n⟩
  · rfl
  · have hi : n.gist.inlets = n.inlets := rfl
    dsimp only [takeFrom]
    rw [hi]
    split
    · rfl
    · split
      · rfl
      · rw [← apart_gist.putInlet]

/-! ## Handling -/

theorem gist_releaseNamed (m : Merge L u) (p : InletId) : (m.releaseNamed p).gist = (m.gist.releaseNamed p).gist := by
  have hi : m.gist.inlets = m.inlets := rfl
  unfold releaseNamed
  rw [hi]
  split
  · rw [apart_gist.release, apart_gist.release, gist_gist]
  · rw [gist_log, gist_log, gist_gist]

theorem gist_noteAll : ∀ (es : List (Entry L)) (m : Merge L u), (∀ e ∈ es, e.isLogged = false) →
    (m.noteAll es).gist = m.gist.noteAll es
  | [], _, _ => rfl
  | e :: es, m, h => by
    show ((m.note e).noteAll es).gist = (m.gist.note e).noteAll es
    rw [gist_noteAll es _ fun e' he => h e' (List.mem_cons_of_mem e he), gist_note m (h e (by simp))]

/-- Whether or not a transition is logged. -/
theorem gist_trace (m : Merge L u) (p : InletId) (a : Arrival α) (next : L.State) :
    (m.trace p a next).gist = m.gist := by
  unfold trace
  split
  · exact gist_log m _
  · rfl

theorem gist_accept (m : Merge L u) (choice : Choice) (p : InletId) (a : Arrival α) :
    (m.accept choice p a).gist = (m.gist.accept choice p a).gist := by
  have hquiet : ∀ e ∈ Entry.arrived choice p a :: (m.handling p a (m.transition p a).next).toList,
      e.isLogged = false := by
    intro e he
    rcases List.mem_cons.1 he with rfl | he
    · rfl
    · have := isCall_handling he
      cases e <;> first | rfl | cases this
  have ht : m.gist.transition p a = m.transition p a := rfl
  have hh : m.gist.handling p a (m.transition p a).next = m.handling p a (m.transition p a).next := rfl
  unfold accept
  dsimp only
  rw [ht, hh, gist_trace, gist_trace, gist_noteAll _ _ hquiet, gist_noteAll _ _ hquiet]
  refine congrArg (noteAll · _) ?_
  exact congrArg (fun n : Merge L u => ({ n with
    turn := if !a.isTerminal && choice.advances p then p + 1 else m.turn
    memory := (m.transition p a).memory, handled := m.handled + 1 } : Merge L u)) (gist_gist m).symm

theorem gist_settled (m : Merge L u) (fx : Effects β L.Key) (next : L.State) :
    (m.settled fx next).gist = (m.gist.settled fx next).gist := by
  have hgo : (m.goOn fx.policy next).gist = (m.gist.goOn fx.policy next).gist := by
    unfold goOn follow
    cases fx.policy with
    | none => exact congrArg (fun n : Merge L u => { n with state := next }) (gist_gist m).symm
    | some policy =>
      have hlog : ∀ m : Merge L u, ({ ({ m with policy } : Merge L u).log (.policyReplaced policy.label) with
          state := next } : Merge L u).gist = { m.gist with policy, state := next } := fun m =>
        congrArg (fun n : Merge L u => { n with state := next }) (gist_log { m with policy } _)
      dsimp only
      rw [hlog, hlog, gist_gist]
  have hfold : ∀ (ps : List InletId) {m m' : Merge L u}, m.gist = m'.gist →
      (ps.foldl releaseNamed m).gist = (ps.foldl releaseNamed m').gist := by
    intro ps
    induction ps with
    | nil => exact fun h => h
    | cons p ps ih => exact fun h => ih (gist_congr (gist_releaseNamed · p) h)
  have hreleased := hfold fx.releases hgo
  unfold settled emit
  cases fx.emission with
  | none => exact hreleased
  | some y =>
    dsimp only
    rw [gist_note _ rfl, gist_note _ rfl]
    exact congrArg (fun n : Merge L u => ({ n with unsent := some y } : Merge L u).note (.emitted y)) hreleased

theorem gist_withStage {m m' : Merge L u} (h : m.gist = m'.gist) (stage : Stage) :
    ({ m with stage } : Merge L u).gist = ({ m' with stage } : Merge L u).gist :=
  congrArg (fun n : Merge L u => { n with stage }) h

theorem gist_close (m : Merge L u) (closing : Option Closing) :
    (m.close closing).gist = (m.gist.close closing).gist := by
  unfold close
  split
  · exact gist_withStage (gist_gist m).symm _
  · exact gist_withStage (gist_gist m).symm _
  · exact gist_finish m _

theorem gist_dispatch (m : Merge L u) (choice : Choice) (p : InletId) (a : Arrival α) :
    (m.dispatch choice p a).gist = (m.gist.dispatch choice p a).gist := by
  have ht : m.gist.transition p a = m.transition p a := rfl
  have haccept := gist_accept m choice p a
  rw [dispatch_eq, dispatch_eq, ht, apply_eq, apply_eq]
  split
  · refine gist_congr (gist_finish · _) ?_
    rw [gist_log, gist_log, haccept]
  · exact gist_congr (gist_close · _) (gist_congr (gist_settled · _ _) haccept)

/-! ## Steps -/

theorem gist_hear {quiet : Merge L u → Merge L u} (hquiet : ∀ m, (quiet m).gist = (quiet m.gist).gist) (m : Merge L u) :
    (m.hear quiet).gist = (m.gist.hear quiet).gist := by
  have hs : m.gist.link.signals = m.link.signals := rfl
  have h0 : m.gist.link.senders = m.link.senders := rfl
  unfold hear
  rw [hs, h0]
  split
  · rename_i n rest _
    rw [gist_note _ rfl, gist_note _ rfl]
    exact congrArg (fun k : Merge L u => ({ k with
      credit := m.credit.grant n, link := { k.link with signals := rest } } : Merge L u).note (.took (.request n)))
      (gist_gist m).symm
  · rename_i rest _
    refine gist_congr (gist_finish · _) ?_
    rw [gist_note _ rfl, gist_note _ rfl]
    exact congrArg (fun k : Merge L u => ({ k with link := { k.link with signals := rest } } : Merge L u).note
      (.took .cancel)) (gist_gist m).symm
  · split
    · exact gist_finish m _
    · exact hquiet m

theorem gist_choose (m : Merge L u) : m.choose.gist = m.gist.choose.gist := by
  have hc : L.choice m.gist.memory m.gist.state = L.choice m.memory m.state := rfl
  have hn : m.gist.inlets = m.inlets := rfl
  have ho : (L.choice m.memory m.state).readingOrder m.gist.turn (m.gist.inletIs · (·.isOpen)) =
      (L.choice m.memory m.state).readingOrder m.turn (m.inletIs · (·.isOpen)) := rfl
  unfold choose
  dsimp only
  rw [hc, hn, ho]
  split
  · exact gist_finish m _
  · split
    · refine gist_congr (gist_finish · _) ?_
      rw [gist_log, gist_log, gist_gist]
    · exact gist_withStage (gist_gist m).symm _

theorem gist_flush (m : Merge L u) (closing : Bool) : (m.flush closing).gist = (m.gist.flush closing).gist := by
  have hu : m.gist.unsent = m.unsent := rfl
  unfold flush
  rw [hu]
  split
  · exact gist_withStage (gist_gist m).symm _
  · have hr : m.gist.link.receiving = m.link.receiving := rfl
    have hpaid : ({ m with unsent := none, credit := m.credit.consume } : Merge L u).gist =
        ({ m.gist with unsent := none, credit := m.gist.credit.consume } : Merge L u).gist :=
      congrArg (fun n : Merge L u => { n with unsent := none, credit := n.credit.consume }) (gist_gist m).symm
    dsimp only
    rw [hr]
    split
    · exact gist_withStage (gist_congr (gist_deliver · _) hpaid) _
    · exact gist_congr (gist_finish · _) hpaid

theorem gist_proceed (m : Merge L u) (aim : Aim) : (m.proceed aim).gist = (m.gist.proceed aim).gist := by
  cases aim with
  | read => exact gist_choose m
  | deliver closing => exact gist_flush m closing

theorem gist_read (m : Merge L u) (choice : Choice) (order : List InletId) :
    (m.read choice order).gist = (m.gist.read choice order).gist := by
  unfold read
  rw [gist_attempt]
  rcases m.attempt order with ⟨_ | ⟨p, a⟩, n⟩
  · exact congrArg (fun n : Merge L u => { n with awake := false }) (gist_gist n).symm
  · exact gist_dispatch n choice p a

/-- **A step of a merge is, in the gist, the step of its gist.** -/
theorem gist_step (m : Merge L u) : m.step.gist = m.gist.step.gist := by
  have hst : m.gist.stage = m.stage := rfl
  have hc : m.gist.credit = m.credit := rfl
  unfold step
  rw [hst, hc]
  split
  · refine gist_withStage ?_ _
    rw [gist_log, gist_log, gist_log, gist_log, gist_gist]
  · have hu : m.gist.unsent = m.unsent := rfl
    have ho : m.gist.openInlets = m.openInlets := rfl
    rw [hu, ho]
    split
    · exact gist_withStage (gist_gist m).symm _
    · split
      · exact gist_finish m _
      · exact gist_withStage (gist_gist m).symm _
  · refine gist_hear (fun m => ?_) m
    have hc : m.gist.credit = m.credit := rfl
    rw [hc]
    split
    · exact gist_proceed m _
    · exact gist_withStage (gist_gist m).symm _
  · split
    · exact gist_proceed m _
    · exact gist_hear (fun m => congrArg (fun n : Merge L u => { n with awake := false }) (gist_gist m).symm) m
  · exact gist_hear (fun m => gist_read m _ _) m
  · exact (gist_gist m).symm
  · exact (gist_gist m).symm

/-! ## The bare run -/

theorem gist_bare (m : Merge L u) : m.bare.gist = m.gist.bare.gist := by
  have hj : m.bare.history.filter (!·.isLogged) = m.gist.bare.history.filter (!·.isLogged) := by
    rw [history_bare, history_bare, doings, doings, history_gist, List.filter_filter, List.filter_filter,
      List.filter_filter]
    congr 1
    funext e
    cases e <;> rfl
  show ({ m.gist.bare.gist with journal := (m.bare.history.filter (!·.isLogged)).toArray } : Merge L u) = _
  rw [hj]
  rfl

/-- Merges with one gist have one bare run, in the gist. -/
theorem gist_bareRun {m m' : Merge L u} (h : m.gist = m'.gist) : ∀ k, (m.bareRun k).gist = (m'.bareRun k).gist
  | 0 => gist_congr gist_bare h
  | k + 1 => gist_congr gist_bare (gist_congr gist_step (gist_bareRun h k))

/-- The merge `m` is, in the gist, on the bare run of `origin`, which has not ended before. -/
def Heads (origin m : Merge L u) : Prop :=
  ∃ k, m.bare.gist = (origin.bareRun k).gist ∧ ∀ j < k, (origin.bareRun j).stage.isFinal = false

theorem Heads.refl (m : Merge L u) : Heads m m := ⟨0, rfl, fun _ h => absurd h (Nat.not_lt_zero _)⟩

theorem Heads.congr {origin m m' : Merge L u} (h : Heads origin m) (hb : m'.bare.gist = m.bare.gist) :
    Heads origin m' := by
  obtain ⟨k, hk, hrun⟩ := h
  exact ⟨k, hb.trans hk, hrun⟩

theorem stage_eq_of_gist {m m' : Merge L u} (h : m.gist = m'.gist) : m.stage = m'.stage := by
  show m.gist.stage = m'.gist.stage
  rw [h]

theorem Heads.step {origin m : Merge L u} (h : Heads origin m) (hw : m.Wanted) : Heads origin m.step := by
  obtain ⟨k, hk, hrun⟩ := h
  cases hw.shadows with
  | stays hs => exact ⟨k, hs ▸ hk, hrun⟩
  | moves hf _ hs =>
    refine ⟨k + 1, ?_, fun j hj => ?_⟩
    · rw [hs]
      exact gist_congr gist_bare (gist_congr gist_step hk)
    · rcases Nat.lt_succ_iff_lt_or_eq.1 hj with hj | rfl
      · exact hrun j hj
      · rw [← stage_eq_of_gist hk, isFinal_bare, hf]

/-- **Where the bare run ends, there is one thing to show for it**, whoever follows it. -/
theorem Heads.collection_eq {origin origin' m m' : Merge L u} (h : Heads origin m) (h' : Heads origin' m')
    (ho : origin.gist = origin'.gist) (hf : m.stage.isFinal = true) (hf' : m'.stage.isFinal = true) :
    m.collection = m'.collection := by
  obtain ⟨k, hk, hrun⟩ := h
  obtain ⟨k', hk', hrun'⟩ := h'
  have hle : ∀ {o o' n : Merge L u} {k k' : Nat}, n.bare.gist = (o.bareRun k).gist → o.gist = o'.gist →
      n.stage.isFinal = true → (∀ j < k', (o'.bareRun j).stage.isFinal = false) → k' ≤ k := by
    intro o o' n k k' hn ho hf hrun
    refine Nat.le_of_not_lt fun hlt => ?_
    have hfinal : (o'.bareRun k).stage.isFinal = true := by
      rw [← stage_eq_of_gist (hn.trans (gist_bareRun ho k)), isFinal_bare, hf]
    rw [hrun k hlt] at hfinal
    cases hfinal
  have hkk : k = k' := Nat.le_antisymm (hle hk' ho.symm hf' hrun) (hle hk ho hf hrun')
  have hsame : m.bare.gist = m'.bare.gist := by rw [hk, hk', hkk, gist_bareRun ho]
  have hstage : ∀ {n : Merge L u}, n.stage.isFinal = true → n.stage = n.bare.gist.stage := by
    intro n hn
    show n.stage = n.stage.bare
    cases hst : n.stage <;> first | rfl | (rw [hst] at hn; cases hn)
  have hsent : ∀ n : Merge L u, n.sent = n.bare.gist.sent := fun n => by rw [sent_gist, sent_bare]
  unfold collection verdict?
  rw [hstage hf, hstage hf', hsent m, hsent m', hsame]

end Merge
end StreamMerge
