import StreamMerge.Proofs.Trimming

/-!
# Finality

Cancelling once is enough, and for ever. What asking and cancelling again can still leave in a session is taken out of it
by `Session.trim`: what no longer counts in its merge, and the consumer's memory that it has cancelled. All other moves
do the same and answer the same without it (`Session.trim_perform`), and so does any play (`Session.play_final`).
-/
namespace StreamMerge

variable {α β : Type} {L : Strategy α β} {u : Source α}

/-! ## Collectors -/

namespace Collector

variable {c c' : Collector β} {k k' : Link β}

/-- A collector that sends no requests. -/
def hush (c : Collector β) : Collector β := { c with mute := true }

/-- Two collectors, each with its link: they differ in nothing that counts, and nothing that they send is taken. -/
structure Alike (c : Collector β) (k : Link β) (c' : Collector β) (k' : Link β) : Prop where
  collector : c.hush = c'.hush
  link : k.trim = k'.trim
  spent : k.Spent
  spent' : k'.Spent

theorem Alike.batch (h : Alike c k c' k') : c.batch = c'.batch := by
  show c.hush.batch = c'.hush.batch
  rw [h.collector]

theorem Alike.outstanding (h : Alike c k c' k') : c.outstanding = c'.outstanding := by
  show c.hush.outstanding = c'.hush.outstanding
  rw [h.collector]

theorem Alike.gathered (h : Alike c k c' k') : c.gathered = c'.gathered := by
  show c.hush.gathered = c'.hush.gathered
  rw [h.collector]

theorem Alike.attached (h : Alike c k c' k') : k.attached = k'.attached := by
  show k.trim.attached = k'.trim.attached
  rw [h.link]

theorem Alike.deliveries (h : Alike c k c' k') : k.deliveries = k'.deliveries := by
  show k.trim.deliveries = k'.trim.deliveries
  rw [h.link]

theorem Alike.replenish (h : Alike c k c' k') :
    Alike (c.replenish k).1 (c.replenish k).2 (c'.replenish k').1 (c'.replenish k').2 := by
  have ho := h.outstanding
  have hb := h.batch
  have hsend : ∀ {k : Link β} (mute : Bool), k.Spent →
      (if mute then k else k.send (.request c'.batch)).trim = k.trim ∧
      (if mute then k else k.send (.request c'.batch)).Spent := by
    intro k mute hk
    cases mute with
    | true => exact ⟨rfl, hk⟩
    | false => exact ⟨hk.trim_send _, hk.send _⟩
  unfold Collector.replenish
  rw [ho, hb]
  split
  · refine ⟨?_, (hsend c.mute h.spent).1.trans (h.link.trans (hsend c'.mute h.spent').1.symm),
      (hsend c.mute h.spent).2, (hsend c'.mute h.spent').2⟩
    show (⟨c'.batch, c'.batch, c.gathered, true⟩ : Collector β) = ⟨c'.batch, c'.batch, c'.gathered, true⟩
    rw [h.gathered]
  · exact h

/-- The links after some deliveries were taken. -/
theorem Alike.taken (h : Alike c k c' k') (rest : List (Delivery β)) :
    Alike c { k with deliveries := rest } c' { k' with deliveries := rest } :=
  ⟨h.collector, congrArg (fun l : Link β => { l with deliveries := rest }) h.link, h.spent, h.spent'⟩

theorem Alike.accept (h : Alike c k c' k') (y : β) : Alike (c.accept y) k (c'.accept y) k' :=
  ⟨congrArg (·.accept y) h.collector, h.link, h.spent, h.spent'⟩

/-- What a collector takes and comes to does not depend on what no longer counts. -/
theorem Alike.receive : ∀ {ds : List (Delivery β)} {c c' : Collector β} {k k' : Link β}, Alike c k c' k' →
    (c.receive k ds).1 = (c'.receive k' ds).1 ∧
    Alike (c.receive k ds).2.1 (c.receive k ds).2.2 (c'.receive k' ds).2.1 (c'.receive k' ds).2.2
  | [], _, _, _, _, h => by
    have hr := (h.taken []).replenish
    unfold Collector.receive
    dsimp only
    rw [hr.attached, hr.gathered]
    exact ⟨rfl, hr⟩
  | .element y :: rest, _, _, _, _, h => by
    unfold Collector.receive
    exact (h.replenish.accept y).receive
  | .complete :: rest, _, _, _, _, h => by
    have hr := (h.taken rest).replenish
    unfold Collector.receive
    dsimp only
    rw [hr.gathered]
    exact ⟨rfl, hr⟩
  | .error e :: rest, _, _, _, _, h => ⟨rfl, (h.taken rest).replenish⟩

theorem Alike.isRunnable (h : Alike c k c' k') : c.isRunnable k = c'.isRunnable k' := by
  unfold Collector.isRunnable
  rw [h.outstanding, h.deliveries, h.attached]

theorem Alike.poll (h : Alike c k c' k') :
    (c.poll k).1 = (c'.poll k').1 ∧ Alike (c.poll k).2.1 (c.poll k).2.2 (c'.poll k').2.1 (c'.poll k').2.2 := by
  unfold Collector.poll
  rw [h.deliveries]
  exact h.receive

end Collector

/-! ## Moves -/

/-- What a user of a session learns from a move. -/
inductive Answer (β : Type) where
  /-- What waiting for a delivery answers. -/
  | received (r : Received β)
  /-- The deliveries that were there. -/
  | drained (ds : List (Delivery β))
  /-- What a poll of the run answers. -/
  | polled (r : RunAnswer)
  /-- What a poll of the collector answers. -/
  | collected (r : Option (Except MergeError (List β)))
  /-- The number of a new handle, if there is one. -/
  | handle (h : Option Nat)

/-- The move does not ask for elements and does not cancel. -/
def Move.matters : Move u → Bool
  | .request _ | .cancel | .cancelHandle _ => false
  | _ => true

/-- The consumer, whether or not it remembers that it has cancelled. -/
def Consumer.hush : Consumer β → Consumer β
  | .present _ => .present true
  | .collecting c => .collecting c.hush
  | .gone => .gone

namespace Session

/-- What is learned from a move. -/
def answer? (s : Session L u) : Move u → Option (Answer β)
  | .receive => some (.received s.receive.1)
  | .drain => some (.drained s.drain.1)
  | .poll fuel => some (.polled (s.pollRun fun _ => fuel).1)
  | .pollCollector => some (.collected s.pollCollector.1)
  | .takeHandle => some (.handle (some s.takeHandle.1))
  | .cloneHandle h => some (.handle (s.cloneHandle h).1)
  | _ => none

/-- What is learned in the course of a play. -/
def answers (s : Session L u) : List (Move u) → List (Answer β)
  | [] => []
  | mv :: moves => (s.answer? mv).toList ++ (s.perform mv).answers moves

theorem answers_append : ∀ (before after : List (Move u)) (s : Session L u),
    s.answers (before ++ after) = s.answers before ++ (s.play before).answers after
  | [], _, _ => rfl
  | mv :: before, after, s => by
    rw [List.cons_append, answers, answers, answers_append before after, play_cons, List.append_assoc]

/-- The session without what no longer counts. -/
def trim (s : Session L u) : Session L u := ⟨s.merge.trim, s.consumer.hush, s.handles⟩

variable {s s' : Session L u}

/-- Asking and cancelling leave nothing behind that counts. -/
theorem trim_perform_of_not_matters (hs : s.merge.link.Spent) {mv : Move u} (hmv : mv.matters = false) :
    (s.perform mv).trim = s.trim ∧ s.answer? mv = none := by
  have hsend : ∀ sig, (s.relink (·.send sig)).trim = s.trim := by
    intro sig
    show (⟨s.merge.withLink (s.merge.link.send sig).trim, s.consumer.hush, s.handles⟩ : Session L u) = _
    rw [hs.trim_send]
    rfl
  cases mv with
  | request n =>
    refine ⟨?_, rfl⟩
    show (s.request n).trim = s.trim
    unfold request
    split
    · split
      · rfl
      · exact hsend _
    · rfl
  | cancel =>
    refine ⟨?_, rfl⟩
    show s.cancel.trim = s.trim
    unfold cancel
    split
    · rename_i hc
      have hhush : s.trim.consumer = .present true := by
        show s.consumer.hush = _
        rw [hc]
        rfl
      rw [← hsend .cancel] at hhush ⊢
      show (⟨_, .present true, _⟩ : Session L u) = _
      rw [← hhush]
      rfl
    · rfl
  | cancelHandle h =>
    refine ⟨?_, rfl⟩
    show (s.cancelHandle h).trim = s.trim
    unfold cancelHandle
    split
    · exact hsend _
    · rfl
  | _ => cases hmv

/-- A change of the link that does the same to it when it is trimmed. -/
theorem trim_relink {f : Link β → Link β} (hf : (f s.merge.link.trim).trim = (f s.merge.link).trim) (c : Consumer β)
    (handles : List Bool) :
    ({ s.trim.relink f with consumer := c.hush, handles } : Session L u).trim =
      ({ s.relink f with consumer := c, handles } : Session L u).trim := by
  have hc : c.hush.hush = c.hush := by cases c <;> rfl
  show (⟨s.merge.withLink (f s.merge.link.trim).trim, c.hush.hush, handles⟩ : Session L u) =
    ⟨s.merge.withLink (f s.merge.link).trim, c.hush, handles⟩
  rw [hf, hc]

theorem trim_trim (s : Session L u) : s.trim.trim = s.trim := by
  have h := trim_relink (s := s) (f := id) (Link.trim_trim _) s.consumer s.handles
  exact h

theorem trim_dismiss (s : Session L u) : s.trim.dismiss.trim = s.dismiss.trim := by
  obtain ⟨m, consumer, handles⟩ := s
  cases consumer with
  | present cancelled =>
    exact trim_relink (s := ⟨m, .present cancelled, handles⟩) (f := fun k => k.hangUp.leave)
      m.link.hangUp.trim_leave .gone handles
  | collecting c => exact trim_trim _
  | gone => exact trim_trim _

theorem trim_receive (s : Session L u) :
    s.trim.receive.2.trim = s.receive.2.trim ∧ s.trim.receive.1 = s.receive.1 := by
  obtain ⟨m, consumer, handles⟩ := s
  cases consumer with
  | present cancelled =>
    have hd : m.trim.link.deliveries = m.link.deliveries := rfl
    unfold receive
    dsimp only [trim, Consumer.hush]
    rw [hd]
    cases m.link.deliveries with
    | nil => exact ⟨trim_trim ⟨m, .present cancelled, handles⟩, rfl⟩
    | cons d rest =>
      exact ⟨trim_relink (s := ⟨m, .present cancelled, handles⟩) (f := fun k => { k with deliveries := rest })
        (m.link.trim_taken rest) (.present cancelled) handles, rfl⟩
  | collecting c => exact ⟨trim_trim _, rfl⟩
  | gone => exact ⟨trim_trim _, rfl⟩

theorem trim_drain (s : Session L u) : s.trim.drain.2.trim = s.drain.2.trim ∧ s.trim.drain.1 = s.drain.1 := by
  obtain ⟨m, consumer, handles⟩ := s
  cases consumer with
  | present cancelled =>
    exact ⟨trim_relink (s := ⟨m, .present cancelled, handles⟩) (f := fun k => { k with deliveries := [] })
      (m.link.trim_taken []) (.present cancelled) handles, rfl⟩
  | collecting c => exact ⟨trim_trim _, rfl⟩
  | gone => exact ⟨trim_trim _, rfl⟩

theorem trim_takeHandle (s : Session L u) :
    s.trim.takeHandle.2.trim = s.takeHandle.2.trim ∧ s.trim.takeHandle.1 = s.takeHandle.1 := by
  obtain ⟨m, consumer, handles⟩ := s
  cases consumer with
  | present cancelled =>
    exact ⟨trim_relink (s := ⟨m, .present cancelled, handles⟩) (f := (·.join)) m.link.trim_join (.present cancelled)
      (handles ++ [true]), rfl⟩
  | collecting c => exact ⟨trim_trim ⟨m, .collecting c, handles ++ [false]⟩, rfl⟩
  | gone => exact ⟨trim_trim ⟨m, .gone, handles ++ [false]⟩, rfl⟩

theorem trim_cloneHandle (s : Session L u) (h : Nat) :
    (s.trim.cloneHandle h).2.trim = (s.cloneHandle h).2.trim ∧ (s.trim.cloneHandle h).1 = (s.cloneHandle h).1 := by
  have hh : s.trim.holds h = s.holds h := rfl
  unfold cloneHandle
  rw [hh]
  split
  · exact ⟨trim_relink (f := (·.join)) s.merge.link.trim_join s.consumer (s.handles ++ [true]), rfl⟩
  · exact ⟨trim_trim s, rfl⟩

theorem trim_dropHandle (s : Session L u) (h : Nat) : (s.trim.dropHandle h).trim = (s.dropHandle h).trim := by
  have hh : s.trim.holds h = s.holds h := rfl
  unfold dropHandle
  rw [hh]
  split
  · exact trim_relink (f := (·.leave)) s.merge.link.trim_leave s.consumer (s.handles.set h false)
  · exact trim_trim s

theorem trim_adjust (s : Session L u) (p : InletId) (woken : u.State → Bool) (f : u.State → u.State) :
    (s.trim.adjust p woken f).trim = (s.adjust p woken f).trim := by
  have hi : s.trim.merge.inlets = s.merge.inlets := rfl
  unfold adjust
  rw [hi]
  split
  · exact trim_trim s
  · rename_i q _
    split
    · exact trim_trim s
    · rename_i state _
      dsimp only
      split
      · exact trim_relink (s := { s with merge := { s.merge with
          inlets := s.merge.inlets.set p { q with source := some (f state) } } }) (f := (·.wake))
          s.merge.link.trim_wake s.consumer s.handles
      · exact trim_trim { s with merge := { s.merge with
          inlets := s.merge.inlets.set p { q with source := some (f state) } } }

theorem trim_poll (hs : s.merge.Decided) (fuel : Nat) :
    (s.trim.poll fun _ => fuel).trim = (s.poll fun _ => fuel).trim ∧
    (s.trim.pollRun fun _ => fuel).1 = (s.pollRun fun _ => fuel).1 := by
  have hpoll : s.trim.poll (fun _ => fuel) = (s.poll fun _ => fuel).trim := by
    show (⟨s.merge.trim.poll fuel, s.consumer.hush, s.handles⟩ : Session L u) = _
    rw [← hs.poll_trim]
    rfl
  have hrun : s.trim.isRunning = s.isRunning := rfl
  refine ⟨by rw [hpoll, trim_trim], ?_⟩
  unfold pollRun runBy
  rw [hrun, hpoll]
  split <;> rfl

theorem trim_beginCollect (s : Session L u) (batch : Nat) :
    (s.trim.beginCollect batch).trim = (s.beginCollect batch).trim := by
  obtain ⟨m, consumer, handles⟩ := s
  cases consumer with
  | present cancelled =>
    exact trim_trim ⟨m, .collecting (.start batch cancelled), handles⟩
  | collecting c => exact trim_trim _
  | gone => exact trim_trim _

theorem trim_pollCollector (hs : s.merge.link.Spent) :
    s.trim.pollCollector.2.trim = s.pollCollector.2.trim ∧ s.trim.pollCollector.1 = s.pollCollector.1 := by
  cases hc : s.consumer with
  | collecting c =>
    have hc' : s.trim.consumer = .collecting c.hush := congrArg Consumer.hush hc
    have halike : Collector.Alike c.hush s.trim.merge.link c s.merge.link :=
      ⟨rfl, Link.trim_trim _, hs.trimmed, hs⟩
    cases hrun : c.isRunnable s.merge.link with
    | false =>
      simp only [pollCollector, hc, hc', halike.isRunnable, hrun, Bool.false_eq_true, if_false]
      exact ⟨trim_trim s, trivial⟩
    | true =>
      obtain ⟨hr, hpoll⟩ := halike.poll
      cases hp : c.poll s.merge.link with
      | mk r ck =>
        cases hp' : c.hush.poll s.trim.merge.link with
        | mk r' ck' =>
          rw [hp, hp'] at hr hpoll
          obtain rfl : r' = r := hr
          have hlink : ck'.2.trim = ck.2.trim := hpoll.link
          have hcol : ck'.1.hush = ck.1.hush := hpoll.collector
          simp only [pollCollector, hc, hc', halike.isRunnable, hrun, if_true, hp, hp']
          cases r' with
          | none =>
            refine ⟨?_, rfl⟩
            show (⟨s.merge.withLink ck'.2.trim, .collecting ck'.1.hush, s.handles⟩ : Session L u) =
              ⟨s.merge.withLink ck.2.trim, .collecting ck.1.hush, s.handles⟩
            rw [hlink, hcol]
          | some r =>
            refine ⟨?_, rfl⟩
            show (⟨s.merge.withLink ck'.2.hangUp.leave.trim, .gone, s.handles⟩ : Session L u) =
              ⟨s.merge.withLink ck.2.hangUp.leave.trim, .gone, s.handles⟩
            rw [← ck'.2.hangUp.trim_leave, ← ck.2.hangUp.trim_leave]
            exact congrArg (fun k : Link β => (⟨s.merge.withLink k.hangUp.leave.trim, .gone, s.handles⟩ : Session L u))
              hlink
  | present cancelled =>
    have hc' : s.trim.consumer = .present true := congrArg Consumer.hush hc
    simp only [pollCollector, hc, hc']
    exact ⟨trim_trim s, trivial⟩
  | gone =>
    have hc' : s.trim.consumer = .gone := congrArg Consumer.hush hc
    simp only [pollCollector, hc, hc']
    exact ⟨trim_trim s, trivial⟩

/-- All other moves do the same, and answer the same, without what no longer counts. -/
theorem trim_perform (hs : s.merge.Decided) {mv : Move u} (hmv : mv.matters = true) :
    (s.trim.perform mv).trim = (s.perform mv).trim ∧ s.trim.answer? mv = s.answer? mv := by
  cases mv with
  | request n => cases hmv
  | cancel => cases hmv
  | cancelHandle h => cases hmv
  | dismiss => exact ⟨trim_dismiss s, rfl⟩
  | receive => exact ⟨(trim_receive s).1, congrArg (fun r => some (Answer.received r)) (trim_receive s).2⟩
  | drain => exact ⟨(trim_drain s).1, congrArg (fun ds => some (Answer.drained ds)) (trim_drain s).2⟩
  | takeHandle => exact ⟨(trim_takeHandle s).1, congrArg (fun h => some (Answer.handle (some h))) (trim_takeHandle s).2⟩
  | hold => exact ⟨trim_relink (f := (·.join)) s.merge.link.trim_join s.consumer s.handles, rfl⟩
  | cloneHandle h => exact ⟨(trim_cloneHandle s h).1, congrArg (fun h => some (Answer.handle h)) (trim_cloneHandle s h).2⟩
  | dropHandle h => exact ⟨trim_dropHandle s h, rfl⟩
  | adjust p woken f => exact ⟨trim_adjust s p woken f, rfl⟩
  | poll fuel => exact ⟨(trim_poll hs fuel).1, congrArg (fun r => some (Answer.polled r)) (trim_poll hs fuel).2⟩
  | abandon =>
    refine ⟨?_, rfl⟩
    show (⟨s.merge.trim.abandon.trim, s.consumer.hush.hush, s.handles⟩ : Session L u) = s.abandon.trim
    rw [← Merge.abandon_trim]
    exact trim_trim s.abandon
  | beginCollect batch => exact ⟨trim_beginCollect s batch, rfl⟩
  | pollCollector =>
    obtain ⟨hsame, hanswer⟩ := trim_pollCollector hs.spent
    exact ⟨hsame, congrArg (fun r => some (Answer.collected r)) hanswer⟩

/-! ## Plays -/

/-- **What no longer counts never counts again.** Of two decided sessions that differ only in that, one makes some moves,
and the other one those among them that matter. -/
theorem trim_play : ∀ (moves : List (Move u)) {s s' : Session L u}, s.trim = s'.trim → s.merge.Decided →
    s'.merge.Decided → (s.play moves).trim = (s'.play (moves.filter Move.matters)).trim ∧
      s.answers moves = s'.answers (moves.filter Move.matters)
  | [], _, _, h, _, _ => ⟨h, rfl⟩
  | mv :: moves, s, s', h, hs, hs' => by
    have hnext := (perform_changes s mv).isDecided hs
    cases hmv : mv.matters with
    | false =>
      obtain ⟨hsame, hsilent⟩ := trim_perform_of_not_matters hs.spent hmv
      obtain ⟨hplay, hanswers⟩ := trim_play moves (hsame.trans h) hnext hs'
      rw [List.filter_cons_of_neg (by rw [hmv]; exact Bool.false_ne_true), play_cons, answers, hsilent]
      exact ⟨hplay, hanswers⟩
    | true =>
      obtain ⟨hsame, hanswer⟩ := trim_perform hs hmv
      obtain ⟨hsame', hanswer'⟩ := trim_perform hs' hmv
      have hafter : (s.perform mv).trim = (s'.perform mv).trim := by rw [← hsame, ← hsame', h]
      obtain ⟨hplay, hanswers⟩ := trim_play moves hafter hnext ((perform_changes s' mv).isDecided hs')
      rw [List.filter_cons_of_pos hmv, play_cons, play_cons, answers, answers, ← hanswer, ← hanswer', h, hanswers]
      exact ⟨hplay, rfl⟩

/-! ## Cancelling -/

/-- The consumer, for the first time, or the holder of a handle cancels with this move. -/
def cancels (s : Session L u) : Move u → Bool
  | .cancel =>
    match s.consumer with
    | .present false => true
    | _ => false
  | .cancelHandle h => s.holds h
  | _ => false

/-- Somebody has cancelled in the course of a play: with a move, or a source while it was polled. -/
def HasCancelled (s : Session L u) (moves : List (Move u)) : Prop :=
  (∃ before mv after, moves = before ++ mv :: after ∧ (s.play before).cancels mv = true) ∨
  ∃ p, .called p ∈ (s.play moves).merge.history

theorem doomed_of_cancels (ha : s.merge.Attached) {mv : Move u} (h : s.cancels mv = true) :
    (s.perform mv).merge.Doomed := by
  cases hf : s.merge.stage.isFinal with
  | true => exact Or.inl ((perform_changes s mv).isFinal hf)
  | false =>
    have hsend : .cancel ∈ (s.merge.link.send .cancel).signals := by
      unfold Link.send
      rw [if_pos (ha hf)]
      simp
    cases mv with
    | cancel =>
      cases hc : s.consumer with
      | present cancelled =>
        cases cancelled with
        | true => simp [cancels, hc] at h
        | false =>
          refine Or.inr ?_
          show .cancel ∈ s.cancel.merge.link.signals
          simp only [cancel, hc]
          exact hsend
      | collecting c => simp [cancels, hc] at h
      | gone => simp [cancels, hc] at h
    | cancelHandle i =>
      have h : s.holds i = true := h
      refine Or.inr ?_
      show .cancel ∈ (s.cancelHandle i).merge.link.signals
      unfold cancelHandle
      rw [if_pos h]
      exact hsend
    | _ => cases h

end Session

namespace Merge

/-- When a source has called for cancellation, the run was cancelled or is over. -/
def Obliging (m : Merge L u) : Prop := ∀ p, .called p ∈ m.history → m.Doomed

theorem Change.obliging {m m' : Merge L u} (h : Change m m') (hm : m.Regular) (ho : m.Obliging) : m'.Obliging := by
  intro p hp
  cases h with
  | step ha =>
    have hstep := step_spec m
    obtain ⟨es, hes, -⟩ := hstep.extends
    rw [hes] at hp
    rcases List.mem_append.1 hp with hp | hp
    · exact ((Change.step m ha).doomed (ho p hp) hm.coherent).1
    · rcases hstep.aside_or_tries with haside | htry
      · obtain ⟨es', hes', hok⟩ := haside.history
        obtain rfl := List.append_cancel_left (hes.symm.trans hes')
        cases hok _ hp
      · exact htry.doomed (hm.attached htry.isFinal) hes hp
  | rouse hr => exact ((Change.rouse m hr).doomed (ho p hp) hm.coherent).1
  | relink k hk => exact ((Change.relink m k hk).doomed (ho p hp) hm.coherent).1
  | adjust i q s s' hq hs => exact ((Change.adjust m i q s s' hq hs).doomed (ho p hp) hm.coherent).1
  | abandon => exact Or.inl rfl

theorem play_obliging {settings : Settings} {sources : List u.State} {m : Merge L u}
    (hm : setUp L u settings sources = .ok m) (moves : List (Move u)) :
    ((Session.start m).play moves).merge.Obliging := by
  have hfresh := setUp_fresh hm
  refine ((Session.play_changes moves (Session.start m)).induction (motive := fun m' => m'.Regular ∧ m'.Obliging)
    (fun _ _ h ⟨hreg, ho⟩ => ⟨h.regular hreg, h.obliging hreg ho⟩) ⟨hfresh.regular, fun p hp => ?_⟩).2
  have hp : .called p ∈ m.history := hp
  rw [hfresh.history] at hp
  cases hp

end Merge

namespace Session

/-- When somebody has cancelled or the run is over, nothing that is sent any more counts. -/
theorem play_decided {settings : Settings} {sources : List u.State} {m : Merge L u}
    (hm : Merge.setUp L u settings sources = .ok m) {moves : List (Move u)}
    (h : (start m).HasCancelled moves ∨ ((start m).play moves).merge.stage.isFinal = true) :
    ((start m).play moves).merge.Decided := by
  have hreliable := (play_changes moves (start m)).reliable (Merge.setUp_fresh hm).reliable
  refine ⟨?_, hreliable.regular.coherent, hreliable.detached⟩
  rcases h with (⟨before, mv, after, rfl, hcancels⟩ | ⟨p, hp⟩) | hf
  · have hbefore := (play_changes before (start m)).reliable (Merge.setUp_fresh hm).reliable
    have hdoomed := doomed_of_cancels hbefore.regular.attached hcancels
    have hnext := (perform_changes ((start m).play before) mv).reliable hbefore
    rw [play_append]
    exact ((play_changes after _).isDecided ⟨hdoomed, hnext.regular.coherent, hnext.detached⟩).doomed
  · exact Merge.play_obliging hm moves p hp
  · exact Or.inl hf

/-- **Cancellation is final.** Once somebody has cancelled, or the run is over, two courses of events that differ only in
who asks and cancels, and how often, come to the same: the same history of polls, drops, calls of the strategy and
deliveries, the same verdict, and the same answers to all who wait, look or poll. -/
theorem play_final {settings : Settings} {sources : List u.State} {m : Merge L u}
    (hm : Merge.setUp L u settings sources = .ok m) (before after after' : List (Move u))
    (hdone : (start m).HasCancelled before ∨ ((start m).play before).merge.stage.isFinal = true)
    (hsame : after.filter Move.matters = after'.filter Move.matters) :
    ((start m).play (before ++ after)).merge.history = ((start m).play (before ++ after')).merge.history ∧
    ((start m).play (before ++ after)).merge.verdict? = ((start m).play (before ++ after')).merge.verdict? ∧
    ((start m).play (before ++ after)).merge.link.deliveries =
      ((start m).play (before ++ after')).merge.link.deliveries ∧
    (start m).answers (before ++ after) = (start m).answers (before ++ after') := by
  have hdecided := play_decided hm hdone
  obtain ⟨hplay, hanswers⟩ := trim_play after rfl hdecided hdecided
  obtain ⟨hplay', hanswers'⟩ := trim_play after' rfl hdecided hdecided
  rw [hsame, ← hplay'] at hplay
  rw [hsame, ← hanswers'] at hanswers
  rw [play_append, play_append, answers_append, answers_append, hanswers]
  exact ⟨congrArg (fun s => s.merge.history) hplay, congrArg (fun s => s.merge.verdict?) hplay,
    congrArg (fun s => s.merge.link.deliveries) hplay, rfl⟩

/-- A handle cancels while the run waits for credit. Then the consumer cancels as well and asks for more, and the handle
is used again before and after the end, or the consumer only asks for more after the end. -/
theorem play_final_fair : ∃ m,
    Merge.setUp (Strategy.fair Nat) (scripted Nat) .standard [.ofList [1, 2], .ofList [3]] = .ok m ∧
    let before := [.request 1, .poll 40, .takeHandle, .cancelHandle 0]
    let after := [.cancelHandle 0, .request 3, .cancel, .receive, .poll 40, .cancelHandle 0, .receive, .poll 40]
    let after' := [.receive, .poll 40, .request 2, .receive, .poll 40]
    (start m).HasCancelled before ∧ after.filter Move.matters = after'.filter Move.matters ∧
    ((start m).play (before ++ after)).merge.history = ((start m).play (before ++ after')).merge.history ∧
    ((start m).play (before ++ after)).merge.verdict? = ((start m).play (before ++ after')).merge.verdict? ∧
    ((start m).play (before ++ after')).merge.verdict? = some (.ok .cancelled) ∧
    (start m).answers (before ++ after) = (start m).answers (before ++ after') := by
  have hm : Merge.setUp (Strategy.fair Nat) (scripted Nat) .standard [.ofList [1, 2], .ofList [3]] = .ok _ := rfl
  have h := play_final hm [.request 1, .poll 40, .takeHandle, .cancelHandle 0]
    [.cancelHandle 0, .request 3, .cancel, .receive, .poll 40, .cancelHandle 0, .receive, .poll 40]
    [.receive, .poll 40, .request 2, .receive, .poll 40]
    (Or.inl (Or.inl ⟨[.request 1, .poll 40, .takeHandle], .cancelHandle 0, [], rfl, rfl⟩)) rfl
  exact ⟨_, hm, Or.inl ⟨[.request 1, .poll 40, .takeHandle], .cancelHandle 0, [], rfl, rfl⟩, rfl, h.1, h.2.1, rfl,
    h.2.2.2⟩

end Session
end StreamMerge
