import StreamMerge.Proofs.Backpressure
import StreamMerge.Proofs.Consumer
import StreamMerge.Proofs.Waiting

/-!
# A merge and its collector

A collector asks for a batch, counts down as elements come in, and asks for the next batch when it has got them all.
What it still expects is `afloat` somewhere: as unused credit, in a request on its way, or as an element in the queue
(`Session.Gathers.balance`). So the collector and the run never wait for each other, and what is collected is exactly
what was delivered (`Session.play_collects`).
-/
namespace StreamMerge

variable {α β : Type} {L : Strategy α β} {u : Source α}

/-! ## What the collector takes -/

/-- The elements of a link's queue. -/
def Link.queued (k : Link β) : Nat := (k.deliveries.filterMap Delivery.element?).length

theorem Link.waiting_send (k : Link β) (sig : Signal) (ha : k.attached = true) :
    (k.send sig).waiting = k.waiting + sig.amount := by
  simp [send, waiting, ha]

theorem Link.waiting_send_cancel (k : Link β) : (k.send .cancel).waiting = k.waiting := by
  unfold send
  split
  · simp [waiting, Signal.amount]
  · rfl

namespace Collector

/-- A collector that asks for `n` elements at a time expects at most so many, and its requests are sent. -/
structure Batches (c : Collector β) (n : Nat) : Prop where
  batch : c.batch = n
  outstanding : c.outstanding ≤ n
  mute : c.mute = false

/-- The collector `c` has taken the elements `ys` on the link `k`: it gathers them, and whatever more it expects it has
asked for. -/
structure Takes (c : Collector β) (k : Link β) (ys : List β) (c' : Collector β) (k' : Link β) : Prop where
  gathered : c'.gathered = c.gathered ++ ys
  attached : k'.attached = k.attached
  receiving : k'.receiving = k.receiving
  batches : ∀ n, 0 < n → c.Batches n → c'.Batches n
  balance : ∀ n, 0 < n → c.Batches n → k.attached = true →
    c'.outstanding + ys.length + k.waiting = c.outstanding + k'.waiting

variable {c c' c'' : Collector β} {k k' k'' : Link β} {ys zs : List β}

theorem Takes.trans (h : Takes c k ys c' k') (h' : Takes c' k' zs c'' k'') : Takes c k (ys ++ zs) c'' k'' := by
  refine ⟨by rw [h'.gathered, h.gathered, List.append_assoc], h'.attached.trans h.attached,
    h'.receiving.trans h.receiving, fun n hn hf => h'.batches n hn (h.batches n hn hf), fun n hn hf ha => ?_⟩
  have h₁ := h.balance n hn hf ha
  have h₂ := h'.balance n hn (h.batches n hn hf) (h.attached.trans ha)
  rw [List.length_append]
  omega

/-- Asking for the next batch, if everything has come, takes nothing. -/
theorem takes_replenish (c : Collector β) (k : Link β) : Takes c k [] (c.replenish k).1 (c.replenish k).2 := by
  unfold replenish
  by_cases hz : c.outstanding = 0
  · rw [if_pos hz]
    have hsend : (if c.mute then k else k.send (.request c.batch)).attached = k.attached ∧
        (if c.mute then k else k.send (.request c.batch)).receiving = k.receiving := by
      unfold Link.send
      split
      · exact ⟨rfl, rfl⟩
      · split <;> exact ⟨rfl, rfl⟩
    refine ⟨(List.append_nil _).symm, hsend.1, hsend.2, fun n _ hf => ⟨hf.batch, ?_, hf.mute⟩, fun n _ hf ha => ?_⟩
    · exact Nat.le_of_eq hf.batch
    · dsimp only
      rw [hf.mute, if_neg Bool.false_ne_true, Link.waiting_send k _ ha, hz]
      simp only [List.length_nil, Signal.amount]
      omega
  · rw [if_neg hz]
    exact ⟨(List.append_nil _).symm, rfl, rfl, fun _ _ hf => hf, fun _ _ _ _ => by simp⟩

theorem outstanding_replenish (c : Collector β) (k : Link β) {n : Nat} (hn : 0 < n) (hf : c.Batches n) :
    0 < (c.replenish k).1.outstanding := by
  unfold replenish
  have := hf.batch
  split
  · dsimp only
    omega
  · dsimp only
    omega

/-- One element is taken. -/
theorem takes_element (c : Collector β) (k : Link β) (y : β) :
    Takes c k [y] ((c.replenish k).1.accept y) (c.replenish k).2 := by
  have h := takes_replenish c k
  refine ⟨by simp [accept, h.gathered], h.attached, h.receiving, fun n hn hf => ?_, fun n hn hf ha => ?_⟩
  · have hf' := h.batches n hn hf
    have := hf'.outstanding
    exact ⟨hf'.batch, by simp only [accept]; omega, hf'.mute⟩
  · have hpos := outstanding_replenish c k hn hf
    have hb := h.balance n hn hf ha
    simp only [accept, List.length_cons, List.length_nil] at hb ⊢
    omega

/-- The collector takes the elements at the head of the queue, and then goes on with the rest. -/
theorem receive_map : ∀ (ys : List β) (c : Collector β) (k : Link β), ∃ c' k', Takes c k ys c' k' ∧
    ∀ ds, c.receive k (ys.map .element ++ ds) = c'.receive k' ds
  | [], c, k => ⟨c, k, ⟨(List.append_nil _).symm, rfl, rfl, fun _ _ hf => hf, fun _ _ _ _ => by simp⟩,
      fun _ => rfl⟩
  | y :: ys, c, k => by
    obtain ⟨c', k', ht, hgo⟩ := receive_map ys ((c.replenish k).1.accept y) (c.replenish k).2
    exact ⟨c', k', (takes_element c k y).trans ht, fun ds => hgo ds⟩

/-- With an empty queue the collector waits, if something can still come. -/
theorem receive_nil (c : Collector β) (k : Link β) : c.receive k [] =
    (if k.attached then none else some (.ok c.gathered),
      (c.replenish { k with deliveries := [] }).1, (c.replenish { k with deliveries := [] }).2) := by
  have h := takes_replenish c { k with deliveries := [] }
  have hg : (c.replenish { k with deliveries := [] }).1.gathered = c.gathered := by simpa using h.gathered
  unfold receive
  dsimp only
  rw [h.attached, hg]

/-- A poll takes all the elements that are there, and then the collector waits for more. -/
theorem poll_elements (c : Collector β) (k : Link β) (hd : k.deliveries = ys.map .element) (ha : k.attached = true) :
    ∃ c' k', c.poll k = (none, c', k') ∧ Takes c k ys c' k' ∧ k'.deliveries = [] := by
  obtain ⟨c₁, k₁, ht, hgo⟩ := receive_map ys c k
  have ht : Takes c k ys c₁ { k₁ with deliveries := [] } :=
    ⟨ht.gathered, ht.attached, ht.receiving, ht.batches, ht.balance⟩
  have hlast := ht.trans (takes_replenish c₁ { k₁ with deliveries := [] })
  rw [List.append_nil] at hlast
  refine ⟨_, _, ?_, hlast, deliveries_replenish c₁ _⟩
  have hpoll : c.poll k = c₁.receive k₁ [] := by
    unfold poll
    rw [hd, ← hgo [], List.append_nil]
  have ha₁ : k₁.attached = true := ht.attached.trans ha
  rw [hpoll, receive_nil, ha₁]
  rfl

end Collector

namespace Merge

/-! ## What is afloat -/

/-- The credit not used yet, the credit in signals that wait to be taken, and the elements that wait in the queue. -/
def afloat (m : Merge L u) : Nat := m.credit.remaining + m.link.waiting + m.link.queued

theorem afloat_congr {m m' : Merge L u} (hc : m'.credit = m.credit) (hw : m'.link.waiting = m.link.waiting)
    (hd : m'.link.deliveries = m.link.deliveries) : m'.afloat = m.afloat := by
  unfold afloat Link.queued
  rw [hc, hw, hd]

theorem Tries.afloat {m m' : Merge L u} (h : Tries m m') (hr : m'.stage.isFinal = false) : m'.afloat = m.afloat := by
  cases h with
  | waits choice order =>
    have hf := frame_seek m order
    exact afloat_congr hf.credit hf.waiting hf.deliveries
  | accepts choice order p a q =>
    have hf := (frame_seek m order).trans (frame_putInlet (m.seek order).2 p q.take.2)
    have hcredit := (dispatched ((m.seek order).2.putInlet p q.take.2) choice p a).credit
    cases closes_dispatch ((m.seek order).2.putInlet p q.take.2) choice p a with
    | ended hfin =>
      rw [hr] at hfin
      cases hfin
    | goesOn _ _ hl =>
      refine afloat_congr (hcredit.trans hf.credit) ?_ ?_
      · rw [hl]
        exact hf.waiting
      · rw [hl]
        exact hf.deliveries

/-- **A step that does not end the run keeps what is afloat**, unless that is more than a credit can hold. -/
theorem Step.afloat {m m' : Merge L u} (h : Step m m') (hr : m'.stage.isFinal = false)
    (hl : m.afloat ≤ Credit.limit) : m'.afloat = m.afloat := by
  cases h with
  | opens => rfl
  | turns => rfl
  | starves => rfl
  | hears n rest _ hs =>
    have hw : m.link.waiting = n + (rest.map Signal.amount).sum := by
      unfold Link.waiting
      rw [hs]
      simp [Signal.amount]
    have hle : m.credit.remaining + n ≤ Credit.limit := by
      unfold Merge.afloat at hl
      omega
    show min (m.credit.remaining + n) Credit.limit + (rest.map Signal.amount).sum + m.link.queued = m.afloat
    unfold Merge.afloat
    rw [hw, Nat.min_eq_left hle]
    omega
  | delivers closing y _ hc _ hrec =>
    have hd := delivered_spec closing y hrec
    have hpos := (Credit.isPositive_iff _).1 hc
    unfold Merge.afloat Link.queued Link.waiting
    rw [hd.link, hd.credit, List.filterMap_append, List.length_append, Credit.remaining_consume]
    show m.credit.remaining - 1 + _ + (_ + 1) = _
    dsimp only
    omega
  | tries m' _ _ ht => exact ht.afloat hr
  | ends m₁ v =>
    rw [(finish_spec m₁ v).stage] at hr
    cases hr
  | rests => rfl

theorem afloat_advance : ∀ (fuel : Nat) {m : Merge L u}, (m.advance fuel).stage.isFinal = false →
    m.afloat ≤ Credit.limit → (m.advance fuel).afloat = m.afloat
  | 0, _, _, _ => rfl
  | fuel + 1, m, hr, hl => by
    unfold advance at hr ⊢
    split at hr
    · rename_i ha
      rw [if_pos ha]
      have hr' : m.step.stage.isFinal = false := by
        refine eq_false_of_ne_true fun hf => ?_
        rw [advance_of_isFinal hf, hf] at hr
        cases hr
      have hstep := (step_spec m).afloat hr' hl
      rw [afloat_advance fuel hr (hstep ▸ hl), hstep]
    · rename_i ha
      rw [if_neg ha]

theorem afloat_poll (fuel : Nat) {m : Merge L u} (hr : (m.poll fuel).stage.isFinal = false)
    (hl : m.afloat ≤ Credit.limit) : (m.poll fuel).afloat = m.afloat := by
  unfold poll at hr ⊢
  split at hr
  · rename_i hf
    rw [if_pos hf]
  · rename_i hf
    rw [if_neg hf]
    exact afloat_advance fuel hr hl

/-! ## The end of the link -/

/-- A run that is over takes no more signals. -/
def Detached (m : Merge L u) : Prop := m.stage.isFinal = true → m.link.attached = false

theorem attached_finish (m : Merge L u) (v : Verdict) : (m.finish v).link.attached = false := by
  rw [finish_eq]
  rfl

theorem detached_dispatch (m : Merge L u) (choice : Choice) (p : InletId) (a : Arrival α) :
    (m.dispatch choice p a).Detached := by
  obtain ⟨m₁, closing, heq, -⟩ := dispatch_close m choice p a
  rw [heq]
  unfold close
  split
  · exact fun hf => by cases hf
  · exact fun hf => by cases hf
  · exact fun _ => attached_finish m₁ _

theorem Step.detached {m m' : Merge L u} (h : Step m m') (hm : m.Detached) : m'.Detached := by
  cases h with
  | opens => exact fun hf => by cases hf
  | turns stage ht =>
    intro hf
    rw [ht.isFinal_next] at hf
    cases hf
  | starves => exact hm
  | hears => exact hm
  | delivers => exact fun hf => by cases hf
  | tries m' _ _ ht =>
    cases ht with
    | waits choice order hst =>
      intro hf
      have hf : (m.seek order).2.stage.isFinal = true := hf
      rw [(frame_seek m order).stage, hst] at hf
      cases hf
    | accepts choice order p a q => exact detached_dispatch _ choice p a
  | ends m₁ v => exact fun _ => attached_finish m₁ v
  | rests => exact hm

theorem Change.detached {m m' : Merge L u} (h : Change m m') (hm : m.Detached) : m'.Detached := by
  cases h with
  | step => exact (step_spec m).detached hm
  | rouse => exact hm
  | relink k hk => exact fun hf => hk.attached.trans (hm hf)
  | adjust => exact hm
  | abandon => exact fun _ => rfl

/-- What the collector relies on: the run is regular, tells the truth to whoever receives it, and lets go of its link at
the end. -/
structure Reliable (m : Merge L u) : Prop where
  regular : m.Regular
  truthful : m.link.receiving = true → m.Truthful
  detached : m.Detached

theorem Change.reliable {m m' : Merge L u} (h : Change m m') (hm : m.Reliable) : m'.Reliable :=
  ⟨h.regular hm.regular,
    fun hr => h.truthful hm.regular.balanced hm.regular.coherent (h.receiving hr) (hm.truthful (h.receiving hr)),
    h.detached hm.detached⟩

theorem Changes.reliable {m m' : Merge L u} (h : Changes m m') (hm : m.Reliable) : m'.Reliable :=
  h.induction (motive := Reliable) (fun _ _ hch hm => hch.reliable hm) hm

theorem Fresh.reliable {m : Merge L u} {sources : List u.State} (h : Fresh m sources) : m.Reliable := by
  refine ⟨h.regular, fun _ => h.truthful, fun hf => ?_⟩
  rw [h.stage] at hf
  cases hf

/-- A run that is over stays so. -/
theorem Changes.isFinal {m m' : Merge L u} (h : Changes m m') (hf : m.stage.isFinal = true) :
    m'.stage.isFinal = true :=
  h.induction (motive := fun m => m.stage.isFinal = true) (fun _ _ hch hf => (hch.rests hf).2 ▸ hf) hf

theorem Changes.rests {m m' : Merge L u} (h : Changes m m') (hf : m.stage.isFinal = true) :
    m'.history = m.history ∧ m'.stage = m.stage := by
  refine h.induction (motive := fun n => n.history = m.history ∧ n.stage = m.stage) ?_ ⟨rfl, rfl⟩
  intro n n' hch ⟨hhistory, hstage⟩
  obtain ⟨hhistory', hstage'⟩ := hch.rests (hstage ▸ hf)
  exact ⟨hhistory'.trans hhistory, hstage'.trans hstage⟩

/-- What there is to show for a run when it is over: the error that ended it, or else everything delivered. -/
def collection (m : Merge L u) : Except MergeError (List β) :=
  match m.verdict? with
  | some (.error e) => .error e
  | _ => .ok m.sent

end Merge

/-- At the end of the queue stands what there is to say at the end of the run, or nothing if it ended silently. -/
theorem Collector.receive_parting (c : Collector β) (k : Link β) (m : Merge L u) (ha : k.attached = false)
    (hg : c.gathered = m.sent) : (c.receive k m.parting).1 = some m.collection := by
  unfold Merge.parting Merge.collection
  cases hv : m.verdict? with
  | none => exact (congrArg Prod.fst (receive_nil c k)).trans (by simp [ha, hg])
  | some v =>
    match v with
    | .ok .cancelled => exact (congrArg Prod.fst (receive_nil c k)).trans (by simp [ha, hg])
    | .ok .completed =>
      have h := (takes_replenish c { k with deliveries := [] }).gathered
      simp only [Option.bind_some, Merge.farewell, Option.toList_some, receive, h, List.append_nil, hg]
    | .error e => rfl

/-- The consumer has no part in this move. -/
def Move.isIdle : Move u → Prop
  | .request _ | .cancel | .dismiss | .receive | .drain | .beginCollect _ | .pollCollector => False
  | _ => True

namespace Session

/-! ## Collecting -/

/-- Everything that the collector `c`, in batches of `n`, still expects is afloat, and everything that was delivered it
has gathered or has before it. -/
structure Gathers (s : Session L u) (c : Collector β) (n : Nat) : Prop where
  batches : c.Batches n
  receiving : s.merge.link.receiving = true
  gathered : s.merge.deliveries = c.gathered.map .element ++ s.merge.link.deliveries
  balance : s.merge.stage.isFinal = false → s.merge.afloat = c.outstanding

/-- A move that neither consumer nor run notices, but for a signal or a sender that comes or goes. -/
structure Calm (s s' : Session L u) : Prop where
  consumer : s'.consumer = s.consumer
  stage : s'.merge.stage = s.merge.stage
  credit : s'.merge.credit = s.merge.credit
  waiting : s'.merge.link.waiting = s.merge.link.waiting
  queue : s'.merge.link.deliveries = s.merge.link.deliveries
  receiving : s'.merge.link.receiving = s.merge.link.receiving
  deliveries : s'.merge.deliveries = s.merge.deliveries

section
variable {s s' : Session L u} {c : Collector β} {n : Nat}

theorem Calm.of_eq (h : s' = s) : Calm s s' := by
  subst h
  exact ⟨rfl, rfl, rfl, rfl, rfl, rfl, rfl⟩

theorem calm_send (s : Session L u) : Calm s (s.relink (·.send .cancel)) := by
  refine ⟨rfl, rfl, rfl, Link.waiting_send_cancel _, ?_, ?_, rfl⟩
  · show (s.merge.link.send .cancel).deliveries = _
    unfold Link.send
    split <;> rfl
  · show (s.merge.link.send .cancel).receiving = _
    unfold Link.send
    split <;> rfl

theorem calm_adjust (s : Session L u) (p : InletId) (woken : u.State → Bool) (f : u.State → u.State) :
    Calm s (s.adjust p woken f) := by
  unfold adjust
  split
  · exact .of_eq rfl
  · split
    · exact .of_eq rfl
    · dsimp only
      split <;> exact ⟨rfl, rfl, rfl, rfl, rfl, rfl, rfl⟩

theorem calm_takeHandle (s : Session L u) : Calm s s.takeHandle.2 := by
  unfold takeHandle
  split <;> exact ⟨rfl, rfl, rfl, rfl, rfl, rfl, rfl⟩

theorem calm_cloneHandle (s : Session L u) (i : Nat) : Calm s (s.cloneHandle i).2 := by
  unfold cloneHandle
  split <;> exact ⟨rfl, rfl, rfl, rfl, rfl, rfl, rfl⟩

theorem calm_cancelHandle (s : Session L u) (i : Nat) : Calm s (s.cancelHandle i) := by
  unfold cancelHandle
  split
  · exact calm_send s
  · exact .of_eq rfl

theorem calm_dropHandle (s : Session L u) (i : Nat) : Calm s (s.dropHandle i) := by
  unfold dropHandle
  split <;> exact ⟨rfl, rfl, rfl, rfl, rfl, rfl, rfl⟩

namespace Gathers

theorem calm (h : s.Gathers c n) (hs : Calm s s') : s'.Gathers c n := by
  refine ⟨h.batches, hs.receiving.trans h.receiving, ?_, fun hr => ?_⟩
  · rw [hs.deliveries, hs.queue, h.gathered]
  · rw [Merge.afloat_congr hs.credit hs.waiting hs.queue]
    exact h.balance (hs.stage ▸ hr)

theorem poll (h : s.Gathers c n) (hl : n ≤ Credit.limit) (fuel : Nat) : (s.perform (.poll fuel)).Gathers c n := by
  obtain ⟨ds, hs⟩ := Merge.sends_poll fuel s.merge
  refine ⟨h.batches, hs.receiving.trans h.receiving, ?_, fun hr => ?_⟩
  · show (s.merge.poll fuel).deliveries = _ ++ (s.merge.poll fuel).link.deliveries
    rw [hs.deliveries, hs.queue, h.gathered, List.append_assoc]
  · have hr : (s.merge.poll fuel).stage.isFinal = false := hr
    have hrun : s.merge.stage.isFinal = false := by
      refine eq_false_of_ne_true fun hf => ?_
      rw [(Merge.poll_changes fuel s.merge).isFinal hf] at hr
      cases hr
    have hbal := h.balance hrun
    have := h.batches.outstanding
    exact (Merge.afloat_poll fuel hr (by omega)).trans hbal

theorem abandon (h : s.Gathers c n) : (s.perform .abandon).Gathers c n := by
  have hs := Merge.sends_abandon s.merge
  refine ⟨h.batches, hs.receiving.trans h.receiving, ?_, fun hr => ?_⟩
  · show s.merge.abandon.deliveries = _ ++ s.merge.abandon.link.deliveries
    rw [hs.deliveries, hs.queue, h.gathered, List.append_assoc]
  · have hr : s.merge.abandon.stage.isFinal = false := hr
    unfold Merge.abandon at hr
    split at hr
    · rename_i hf
      rw [hr] at hf
      cases hf
    · cases hr

/-- The queue has elements, and then what there is to say at the end of the run. -/
theorem queue (h : s.Gathers c n) (ht : s.merge.Truthful) : ∃ ys, s.merge.sent = c.gathered ++ ys ∧
    s.merge.link.deliveries = ys.map .element ++ s.merge.parting := by
  obtain ⟨sent, hd, -⟩ := ht
  have hsent : s.merge.sent = sent := by
    have hmap : (sent.map Delivery.element).filterMap Delivery.element? = sent := by
      rw [List.filterMap_map]
      exact List.filterMap_some
    rw [Merge.sent, hd, List.filterMap_append, Merge.element?_parting, List.append_nil, hmap]
  rw [hsent]
  rw [h.gathered] at hd
  rcases List.append_eq_append_iff.1 hd with ⟨zs, hmap, hq⟩ | ⟨zs, hmap, hq⟩
  · obtain ⟨ys, hys, rfl⟩ := Merge.append_of_map (fun _ _ h => Delivery.element.inj h) hmap
    exact ⟨ys, hys, hq⟩
  · -- What there is to say at the end is no element.
    obtain ⟨ys, hys, rfl⟩ := Merge.append_of_map (fun _ _ h => Delivery.element.inj h) hmap
    have hnone := s.merge.element?_parting
    rw [hq, List.filterMap_append, List.filterMap_map] at hnone
    have hnil : ys = [] := by
      have := (List.append_eq_nil_iff.1 hnone).1
      rwa [show (Delivery.element? ∘ Delivery.element : β → Option β) = some from rfl,
        List.filterMap_some] at this
    subst hnil
    exact ⟨[], by simpa using hys.symm, by simpa using hq.symm⟩

/-- The elements of the queue are taken out of it. -/
theorem take (h : s.Gathers c n) (hn : 0 < n) (ha : s.merge.link.attached = true) {ys : List β}
    (hq : s.merge.link.deliveries = ys.map .element) {c' : Collector β} {k' : Link β}
    (ht : Collector.Takes c s.merge.link ys c' k') (hk' : k'.deliveries = [])
    (hs' : s'.merge = { s.merge with link := k' }) : s'.Gathers c' n := by
  refine ⟨ht.batches n hn h.batches, ?_, ?_, fun hr => ?_⟩
  · rw [hs']
    exact ht.receiving.trans h.receiving
  · rw [hs']
    show s.merge.deliveries = _ ++ k'.deliveries
    rw [hk', ht.gathered, h.gathered, hq, List.map_append, List.append_nil]
  · rw [hs'] at hr ⊢
    have hbefore : s.merge.credit.remaining + s.merge.link.waiting + s.merge.link.queued = c.outstanding :=
      h.balance hr
    have hqueued : s.merge.link.queued = ys.length := by
      unfold Link.queued
      rw [hq, List.filterMap_map]
      exact congrArg List.length List.filterMap_some
    have htaken := ht.balance n hn h.batches ha
    show s.merge.credit.remaining + k'.waiting + (k'.deliveries.filterMap Delivery.element?).length = _
    rw [hk', List.filterMap_nil, List.length_nil]
    omega

/-- As long as the run is not over, a poll of the collector has no result. -/
theorem collect (h : s.Gathers c n) (hc : s.consumer = .collecting c) (hn : 0 < n) (hm : s.merge.Reliable)
    (hr : s.merge.stage.isFinal = false) : s.pollCollector.1 = none ∧
      ∃ c', s.pollCollector.2.consumer = .collecting c' ∧ s.pollCollector.2.Gathers c' n := by
  have ha : s.merge.link.attached = true := hm.regular.attached hr
  obtain ⟨ys, -, hq⟩ := h.queue (hm.truthful h.receiving)
  rw [Merge.parting_of_isFinal hr, List.append_nil] at hq
  obtain ⟨c', k', hpoll, ht, hk'⟩ := c.poll_elements s.merge.link hq ha
  unfold pollCollector
  rw [hc]
  dsimp only
  split
  · rw [hpoll]
    exact ⟨rfl, c', rfl, h.take hn ha hq ht hk' rfl⟩
  · exact ⟨rfl, c, hc, h⟩

/-- With the run over, a poll of the collector has its result. -/
theorem conclude (h : s.Gathers c n) (hc : s.consumer = .collecting c) (hm : s.merge.Reliable)
    (hf : s.merge.stage.isFinal = true) :
    s.pollCollector.1 = some s.merge.collection ∧ s.pollCollector.2.consumer = .gone := by
  have ha : s.merge.link.attached = false := hm.detached hf
  obtain ⟨ys, hsent, hq⟩ := h.queue (hm.truthful h.receiving)
  obtain ⟨c₁, k₁, ht, hgo⟩ := Collector.receive_map ys c s.merge.link
  have hpoll : (c.poll s.merge.link).1 = some s.merge.collection := by
    refine (congrArg Prod.fst ((congrArg (c.receive s.merge.link) hq).trans (hgo s.merge.parting))).trans ?_
    exact Collector.receive_parting c₁ k₁ s.merge (ht.attached.trans ha) (ht.gathered.trans hsent.symm)
  have hrun : c.isRunnable s.merge.link = true := by
    unfold Collector.isRunnable
    rw [ha]
    simp
  unfold pollCollector
  rw [hc]
  dsimp only
  rw [if_pos hrun]
  generalize c.poll s.merge.link = rck at hpoll
  obtain ⟨r, c', k'⟩ := rck
  subst hpoll
  exact ⟨rfl, rfl⟩

end Gathers

/-! ## Before the consumer collects -/

/-- A move in which the consumer has no part is a poll, gives up the run, or is calm. -/
theorem perform_of_isIdle (s : Session L u) {mv : Move u} (hi : mv.isIdle) :
    (∃ fuel, mv = .poll fuel) ∨ mv = .abandon ∨ Calm s (s.perform mv) := by
  cases mv with
  | poll fuel => exact Or.inl ⟨fuel, rfl⟩
  | abandon => exact Or.inr (Or.inl rfl)
  | takeHandle => exact Or.inr (Or.inr (calm_takeHandle s))
  | hold => exact Or.inr (Or.inr ⟨rfl, rfl, rfl, rfl, rfl, rfl, rfl⟩)
  | cloneHandle i => exact Or.inr (Or.inr (calm_cloneHandle s i))
  | cancelHandle i => exact Or.inr (Or.inr (calm_cancelHandle s i))
  | dropHandle i => exact Or.inr (Or.inr (calm_dropHandle s i))
  | adjust p woken f => exact Or.inr (Or.inr (calm_adjust s p woken f))
  | _ => exact hi.elim

theorem Gathers.idle (h : s.Gathers c n) (hl : n ≤ Credit.limit) {mv : Move u} (hi : mv.isIdle) :
    (s.perform mv).consumer = s.consumer ∧ (s.perform mv).Gathers c n := by
  rcases s.perform_of_isIdle hi with ⟨fuel, rfl⟩ | rfl | hcalm
  · exact ⟨rfl, h.poll hl fuel⟩
  · exact ⟨rfl, h.abandon⟩
  · exact ⟨hcalm.consumer, h.calm hcalm⟩

theorem gathers_idle (hl : n ≤ Credit.limit) : ∀ (moves : List (Move u)) {s : Session L u}, s.Gathers c n →
    (∀ mv ∈ moves, mv.isIdle) → (s.play moves).consumer = s.consumer ∧ (s.play moves).Gathers c n
  | [], _, h, _ => ⟨rfl, h⟩
  | mv :: moves, s, h, hi => by
    obtain ⟨hc, h₁⟩ := h.idle hl (hi mv (List.mem_cons_self ..))
    obtain ⟨hc', h₂⟩ := gathers_idle hl moves h₁ fun mv' hmem => hi mv' (List.mem_cons_of_mem _ hmem)
    exact ⟨hc'.trans hc, h₂⟩

/-- Nothing is afloat at the start, and a collector that is about to begin expects nothing yet. -/
theorem gathers_start {m : Merge L u} {sources : List u.State} (h : Merge.Fresh m sources) (batch : Nat) :
    (start m).Gathers (.start batch false) (max batch 1) := by
  refine ⟨⟨rfl, Nat.zero_le _, rfl⟩, ?_, ?_, fun _ => ?_⟩
  · show m.link.receiving = true
    rw [h.link]
    rfl
  · show m.deliveries = m.link.deliveries
    rw [Merge.deliveries, h.history, h.link]
    rfl
  · show m.credit.remaining + m.link.waiting + m.link.queued = 0
    rw [h.credit, h.link]
    rfl

/-! ## While the consumer collects -/

/-- The consumer collects in batches of `n`, or it has got its result. -/
inductive Collecting (s : Session L u) (n : Nat) : Prop
  | gathers (c : Collector β) : s.consumer = .collecting c → s.Gathers c n → Collecting s n
  | gone : s.consumer = .gone → s.merge.stage.isFinal = true → Collecting s n

/-- Of a consumer that is no longer there, or that collects, only the polls of the collector are not calm. -/
theorem calm_perform (hc : ∀ cancelled, s.consumer ≠ .present cancelled) (mv : Move u) :
    mv.isIdle ∨ mv = .pollCollector ∨ Calm s (s.perform mv) := by
  cases mv with
  | pollCollector => exact Or.inr (Or.inl rfl)
  | request | cancel | dismiss | receive | drain | beginCollect =>
    refine Or.inr (Or.inr (.of_eq ?_))
    cases hcons : s.consumer with
    | present cancelled => exact absurd hcons (hc cancelled)
    | _ => simp [perform, request, cancel, dismiss, receive, drain, beginCollect, hcons]
  | _ => exact Or.inl trivial

theorem gone_perform (hc : s.consumer = .gone) (mv : Move u) : (s.perform mv).consumer = .gone := by
  rcases calm_perform (fun _ h => by cases hc.symm.trans h) mv with hi | rfl | hcalm
  · rcases s.perform_of_isIdle hi with ⟨fuel, rfl⟩ | rfl | hcalm
    · exact hc
    · exact hc
    · exact hcalm.consumer.trans hc
  · simp [perform, pollCollector, hc]
  · exact hcalm.consumer.trans hc

theorem Collecting.perform (h : s.Collecting n) (hn : 0 < n) (hl : n ≤ Credit.limit) (hm : s.merge.Reliable)
    (mv : Move u) : (s.perform mv).Collecting n := by
  cases h with
  | gathers c hc h =>
    rcases calm_perform (fun _ h => by cases hc.symm.trans h) mv with hi | rfl | hcalm
    · obtain ⟨hc', h'⟩ := h.idle hl hi
      exact .gathers c (hc'.trans hc) h'
    · cases hf : s.merge.stage.isFinal with
      | false =>
        obtain ⟨-, c', hc', h'⟩ := h.collect hc hn hm hf
        exact .gathers c' hc' h'
      | true =>
        obtain ⟨-, hc'⟩ := h.conclude hc hm hf
        exact .gone hc' ((perform_changes s .pollCollector).isFinal hf)
    · exact .gathers c (hcalm.consumer.trans hc) (h.calm hcalm)
  | gone hc hf => exact .gone (gone_perform hc mv) ((perform_changes s mv).isFinal hf)

theorem Collecting.play (hn : 0 < n) (hl : n ≤ Credit.limit) : ∀ (moves : List (Move u)) {s : Session L u},
    s.Collecting n → s.merge.Reliable → (s.play moves).Collecting n
  | [], _, h, _ => h
  | mv :: moves, s, h, hm =>
    (h.perform hn hl hm mv).play hn hl moves ((perform_changes s mv).reliable hm)

end

/-- In this session a collector in batches of `n` and the run never wait for each other. -/
structure Collects (s : Session L u) (n : Nat) : Prop where
  /-- The collector stays until the run is over. -/
  consumer : (∃ c, s.consumer = .collecting c) ∨ s.consumer = .gone ∧ s.merge.stage.isFinal = true
  /-- Until then, what it has asked for and has not got is credit of the run, credit on its way or in the queue; it is
  one batch at most. -/
  balance : ∀ c, s.consumer = .collecting c → s.merge.stage.isFinal = false →
    s.merge.credit.remaining + s.merge.link.waiting + s.merge.link.queued = c.outstanding ∧ c.outstanding ≤ n
  /-- If the collector waits and no signal is on its way, the run has credit and does not wait for any, -/
  unblocked : ∀ c, s.consumer = .collecting c → c.isRunnable s.merge.link = false → s.merge.link.signals = [] →
    0 < s.merge.credit.remaining ∧ ∀ aim, s.merge.stage = .awaiting aim → s.merge.awake = true
  /-- and if a poll of the run leaves both waiting, then the run waits for its sources. -/
  waits : ∀ c fuel, s.consumer = .collecting c → s.merge.stage.isFinal = false →
    (s.merge.poll fuel).awake = false → (s.merge.poll fuel).stage.isFinal = false →
    c.isRunnable (s.merge.poll fuel).link = false →
    ∃ before reads, (s.merge.poll fuel).history = s.merge.history ++ before ++ reads ∧
      (s.merge.poll fuel).Idles reads
  /-- The collector has its result when the run is over, and not before: the error of the run, or else all elements
  delivered, in their order. -/
  result : ∀ c, s.consumer = .collecting c →
    s.pollCollector.1 = if s.merge.stage.isFinal then some s.merge.collection else none

/-- A collector that waits has something afloat, and nothing of it in the queue. -/
theorem Gathers.starving {s : Session L u} {c : Collector β} {n : Nat} (h : s.Gathers c n) (hm : s.merge.Reliable)
    (hrun : c.isRunnable s.merge.link = false) : 0 < s.merge.credit.remaining + s.merge.link.waiting := by
  simp only [Collector.isRunnable, Bool.or_eq_false_iff, decide_eq_false_iff_not, Bool.not_eq_eq_eq_not,
    Bool.not_false, List.isEmpty_iff] at hrun
  obtain ⟨⟨hpos, hempty⟩, ha⟩ := hrun
  -- It would have its result if the run were over.
  have hr : s.merge.stage.isFinal = false := by
    refine eq_false_of_ne_true fun hf => ?_
    rw [hm.detached hf] at ha
    cases ha
  have hbal : s.merge.credit.remaining + s.merge.link.waiting + s.merge.link.queued = c.outstanding := h.balance hr
  have hq : s.merge.link.queued = 0 := by
    unfold Link.queued
    rw [hempty]
    rfl
  omega

theorem Collecting.collects {s : Session L u} {n : Nat} (h : s.Collecting n) (hn : 0 < n) (hl : n ≤ Credit.limit)
    (hm : s.merge.Reliable) : s.Collects n := by
  cases h with
  | gone hc hf =>
    have habsurd : ∀ c, s.consumer ≠ .collecting c := fun c h => by cases hc.symm.trans h
    exact ⟨Or.inr ⟨hc, hf⟩, fun c h => absurd h (habsurd c), fun c h => absurd h (habsurd c),
      fun c _ h => absurd h (habsurd c), fun c h => absurd h (habsurd c)⟩
  | gathers c hc h =>
    have honly : ∀ c', s.consumer = .collecting c' → c' = c := fun c' hc' => by
      cases hc.symm.trans hc'
      rfl
    refine ⟨Or.inl ⟨c, hc⟩, fun c' hc' hr => ?_, fun c' hc' hrun hs => ?_, fun c' fuel hc' hr ha hr' hrun => ?_,
      fun c' hc' => ?_⟩
    · obtain rfl := honly c' hc'
      exact ⟨h.balance hr, h.batches.outstanding⟩
    · obtain rfl := honly c' hc'
      have hpos := h.starving hm hrun
      have hw : s.merge.link.waiting = 0 := by
        unfold Link.waiting
        rw [hs]
        rfl
      rw [hw, Nat.add_zero] at hpos
      refine ⟨hpos, fun aim hst => eq_true_of_ne_false fun ha => ?_⟩
      have hnone := hm.regular.dozes ha aim hst
      rw [(Credit.isPositive_iff _).2 hpos] at hnone
      cases hnone
    · obtain rfl := honly c' hc'
      have hm' : (s.merge.poll fuel).Reliable := (Merge.poll_changes fuel s.merge).reliable hm
      rcases (hm.regular.waits hr ha hr').reason with hst | hidles
      · -- Without credit and signals, what the collector expects would be nowhere.
        have hpos := (h.poll hl fuel).starving hm' hrun
        have hw : (s.merge.poll fuel).link.waiting = 0 := by
          unfold Link.waiting
          rw [hst.signals]
          rfl
        have hpos : 0 < (s.merge.poll fuel).credit.remaining + (s.merge.poll fuel).link.waiting := hpos
        rw [hst.credit, hw] at hpos
        exact absurd hpos (Nat.lt_irrefl 0)
      · exact hidles
    · cases hf : s.merge.stage.isFinal with
      | false => exact (h.collect hc hn hm hf).1
      | true => exact (h.conclude hc hm hf).1

/-- **A merge and its collector never wait for each other.** For every strategy, all sources, every batch, and every
order of moves before and after the consumer, which has done nothing else, begins to collect. -/
theorem play_collects {settings : Settings} {sources : List u.State} {m : Merge L u}
    (hm : Merge.setUp L u settings sources = .ok m) (early later : List (Move u)) (hidle : ∀ mv ∈ early, mv.isIdle)
    (batch : Nat) (hbatch : batch ≤ Credit.limit) :
    ((start m).play (early ++ .beginCollect batch :: later)).Collects (max batch 1) := by
  have hfresh := Merge.setUp_fresh hm
  have hn : 0 < max batch 1 := by omega
  have hl : max batch 1 ≤ Credit.limit := Nat.max_le.2 ⟨hbatch, by decide⟩
  obtain ⟨hc, hg⟩ := gathers_idle hl early (gathers_start hfresh batch) hidle
  have hbegin : ((start m).play early).perform (.beginCollect batch) =
      { (start m).play early with consumer := .collecting (.start batch false) } := by
    have hc : ((start m).play early).consumer = .present false := hc
    simp only [perform, beginCollect, hc]
  have hcollecting : (((start m).play early).perform (.beginCollect batch)).Collecting (max batch 1) := by
    rw [hbegin]
    exact .gathers _ rfl ⟨hg.batches, hg.receiving, hg.gathered, hg.balance⟩
  have hreliable := (play_changes early (start m)).reliable hfresh.reliable
  have hreliable' := (perform_changes ((start m).play early) (.beginCollect batch)).reliable hreliable
  rw [play_append, play_cons]
  exact (hcollecting.play hn hl later hreliable').collects hn hl ((play_changes later _).reliable hreliable')

/-- In batches of two, three elements are collected; the run was held and polled before, and read nothing. -/
theorem play_collects_fair : ∃ m,
    Merge.setUp (Strategy.fair Nat) (scripted Nat) .standard [.ofList [1, 3], .ofList [2]] = .ok m ∧
    ((∀ mv ∈ [Move.hold, .poll 20], Move.isIdle (u := scripted Nat) mv) ∧ 2 ≤ Credit.limit) ∧
    ((start m).play ([.hold, .poll 20] ++ .beginCollect 2 ::
      [.pollCollector, .poll 30, .pollCollector, .poll 60])).Collects (max 2 1) ∧
    ((start m).play ([.hold, .poll 20] ++ .beginCollect 2 ::
      [.pollCollector, .poll 30, .pollCollector, .poll 60])).pollCollector.1 = some (.ok [1, 2, 3]) := by
  have hm : Merge.setUp (Strategy.fair Nat) (scripted Nat) .standard [.ofList [1, 3], .ofList [2]] = .ok _ := rfl
  have hidle : ∀ mv ∈ [Move.hold, .poll 20], Move.isIdle (u := scripted Nat) mv := by
    intro mv hmem
    simp only [List.mem_cons, List.not_mem_nil, or_false] at hmem
    rcases hmem with rfl | rfl <;> trivial
  have hbatch : 2 ≤ Credit.limit := by decide
  exact ⟨_, hm, ⟨hidle, hbatch⟩,
    play_collects hm _ [.pollCollector, .poll 30, .pollCollector, .poll 60] hidle 2 hbatch, rfl⟩

end Session
end StreamMerge
