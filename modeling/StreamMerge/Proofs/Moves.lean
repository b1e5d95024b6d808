import StreamMerge.Proofs.History
import StreamMerge.Session.Move

/-!
# What moves do

A move of the consumer, of a holder of a handle or of a source does no more to the merge than to act on its link,
or to change a source; all other moves poll the run or give it up (`Session.performs`). What can be done to the
link is `Link.Around`. `Session.seen` and `Session.asked` are what the consumer takes out of the queue, and the
credit that is asked for, in the course of a play.
-/
namespace StreamMerge

variable {α β : Type} {L : Strategy α β} {u : Source α}

/-! ## What is taken and asked for -/

/-- The credit that a signal brings. -/
def Signal.amount : Signal → Nat
  | .request n => n
  | .cancel => 0

/-- The credit in the signals that wait to be taken. -/
def Link.waiting (k : Link β) : Nat := (k.signals.map Signal.amount).sum

/-- How much credit a collector asks for while it gathers `ds`. -/
def Collector.asks (c : Collector β) : List (Delivery β) → Nat
  | .element y :: rest =>
    if c.outstanding = 0 then c.batch + ({ c with outstanding := c.batch }.accept y).asks rest
    else (c.accept y).asks rest
  | _ => if c.outstanding = 0 then c.batch else 0

namespace Session

/-- How much credit is asked for with a move. -/
def asks (s : Session L u) : Move u → Nat
  | .request n => n
  | .pollCollector =>
    match s.consumer with
    | .collecting c => c.asks s.merge.link.deliveries
    | _ => 0
  | _ => 0

/-- How much credit is asked for in the course of a play. -/
def asked (s : Session L u) : List (Move u) → Nat
  | [] => 0
  | mv :: moves => s.asks mv + (s.perform mv).asked moves

theorem asked_append : ∀ (before after : List (Move u)) (s : Session L u),
    s.asked (before ++ after) = s.asked before + (s.play before).asked after
  | [], after, s => (Nat.zero_add _).symm
  | mv :: before, after, s => by
    rw [List.cons_append, asked, asked, asked_append before after, play_cons, Nat.add_assoc]

/-- What the consumer takes out of the queue with a move. -/
def sees (s : Session L u) : Move u → List (Delivery β)
  | .receive =>
    match s.receive.1 with
    | .delivery d => [d]
    | _ => []
  | .drain => s.drain.1
  | .pollCollector =>
    match s.consumer with
    | .collecting c => if c.isRunnable s.merge.link then s.merge.link.deliveries else []
    | _ => []
  | _ => []

/-- What the consumer takes out of the queue in the course of a play. -/
def seen (s : Session L u) : List (Move u) → List (Delivery β)
  | [] => []
  | mv :: moves => s.sees mv ++ (s.perform mv).seen moves

end Session

/-! ## The link from outside -/

/-- What those around a run can do to its link: send signals, take deliveries, come, go and stop receiving. -/
structure Link.Around (k k' : Link β) : Prop where
  attached : k'.attached = k.attached
  signals : ∃ ss, k'.signals = k.signals ++ ss
  deliveries : ∃ ds, k.deliveries = ds ++ k'.deliveries
  receiving : k'.receiving = true → k.receiving = true

/-- Those around a run act on its link: if there is still somebody who receives, the deliveries `ds` are taken out of
the queue, and credit of at most `n` is asked for. -/
structure Link.Acted (k : Link β) (ds : List (Delivery β)) (n : Nat) (k' : Link β) : Prop where
  around : Around k k'
  taken : k'.receiving = true → k.deliveries = ds ++ k'.deliveries
  waiting : k'.waiting ≤ k.waiting + n

namespace Link

variable {k k' k'' : Link β} {ds : List (Delivery β)} {n : Nat}

theorem Around.refl (k : Link β) : Around k k := ⟨rfl, ⟨[], by simp⟩, ⟨[], rfl⟩, id⟩

theorem Around.trans (h : Around k k') (h' : Around k' k'') : Around k k'' := by
  obtain ⟨ss, hs⟩ := h.signals
  obtain ⟨ss', hs'⟩ := h'.signals
  obtain ⟨ds, hd⟩ := h.deliveries
  obtain ⟨ds', hd'⟩ := h'.deliveries
  exact ⟨h'.attached.trans h.attached, ⟨ss ++ ss', by rw [hs', hs, List.append_assoc]⟩,
    ⟨ds ++ ds', by rw [hd, hd', List.append_assoc]⟩, fun hr => h.receiving (h'.receiving hr)⟩

theorem Acted.refl (k : Link β) (n : Nat) : Acted k [] n k := ⟨.refl k, fun _ => rfl, Nat.le_add_right _ _⟩

theorem acted_send (k : Link β) (sig : Signal) : Acted k [] sig.amount (k.send sig) := by
  unfold send
  split
  · refine ⟨⟨rfl, ⟨[sig], rfl⟩, ⟨[], rfl⟩, id⟩, fun _ => rfl, ?_⟩
    unfold waiting
    simp
  · exact .refl k _

theorem acted_join (k : Link β) : Acted k [] 0 k.join :=
  ⟨⟨rfl, ⟨[], by simp [join]⟩, ⟨[], rfl⟩, id⟩, fun _ => rfl, Nat.le_refl _⟩

theorem acted_leave (k : Link β) : Acted k [] 0 k.leave :=
  ⟨⟨rfl, ⟨[], by simp [leave]⟩, ⟨[], rfl⟩, id⟩, fun _ => rfl, Nat.le_refl _⟩

theorem acted_wake (k : Link β) : Acted k [] 0 k.wake :=
  ⟨⟨rfl, ⟨[], by simp [wake]⟩, ⟨[], rfl⟩, id⟩, fun _ => rfl, Nat.le_refl _⟩

theorem acted_taken (ds : List (Delivery β)) {rest : List (Delivery β)} (h : k.deliveries = ds ++ rest) :
    Acted k ds 0 { k with deliveries := rest } :=
  ⟨⟨rfl, ⟨[], by simp⟩, ⟨ds, h⟩, id⟩, fun _ => h, Nat.le_refl _⟩

/-- Whoever goes takes the queue along. -/
theorem acted_hangUp (h : Around k k') (hw : k'.waiting ≤ k.waiting + n) : Acted k ds n k'.hangUp.leave := by
  have hup : Around k' k'.hangUp.leave :=
    ⟨rfl, ⟨[], by simp [hangUp, leave]⟩, ⟨k'.deliveries, by simp [hangUp, leave]⟩, by simp [hangUp, leave]⟩
  exact ⟨h.trans hup, fun hr => (by cases hr), hw⟩

end Link

namespace Collector

variable {k : Link β}

theorem acted_replenish (c : Collector β) (k : Link β) :
    Link.Acted k [] (if c.outstanding = 0 then c.batch else 0) (c.replenish k).2 := by
  unfold replenish
  by_cases hz : c.outstanding = 0
  · rw [if_pos hz, if_pos hz]
    dsimp only
    split
    · exact .refl k _
    · exact Link.acted_send k (.request c.batch)
  · rw [if_neg hz, if_neg hz]
    exact .refl k 0

theorem deliveries_replenish (c : Collector β) (k : Link β) : (c.replenish k).2.deliveries = k.deliveries := by
  unfold replenish Link.send
  split
  · dsimp only
    split
    · rfl
    · split <;> rfl
  · rfl

/-- A collector acts on the link like anybody around the run. -/
theorem around_receive : ∀ (ds : List (Delivery β)) (c : Collector β) (k : Link β) (done : List (Delivery β)),
    k.deliveries = done ++ ds → Link.Around k (c.receive k ds).2.2
  | [], c, k, done, h =>
    (Link.acted_taken done (by simpa using h)).around.trans
      (c.acted_replenish { k with deliveries := [] }).around
  | .element y :: rest, c, k, done, h =>
    (c.acted_replenish k).around.trans
      (around_receive rest _ _ (done ++ [.element y]) (by rw [deliveries_replenish, h]; simp))
  | .complete :: rest, c, k, done, h =>
    (Link.acted_taken (done ++ [.complete]) (by rw [h]; simp)).around.trans
      (c.acted_replenish { k with deliveries := rest }).around
  | .error e :: rest, c, k, done, h =>
    (Link.acted_taken (done ++ [.error e]) (by rw [h]; simp)).around.trans
      (c.acted_replenish { k with deliveries := rest }).around

/-- A collector that goes on has taken everything out of the queue. -/
theorem receive_pending : ∀ (ds : List (Delivery β)) (c : Collector β) (k : Link β),
    (c.receive k ds).1 = none → (c.receive k ds).2.2.deliveries = []
  | [], c, k, _ => c.deliveries_replenish { k with deliveries := [] }
  | .element y :: rest, c, k, h => receive_pending rest _ _ h
  | .complete :: rest, c, k, h => by cases h
  | .error e :: rest, c, k, h => by cases h

theorem waiting_receive : ∀ (ds : List (Delivery β)) (c : Collector β) (k : Link β),
    (c.receive k ds).2.2.waiting ≤ k.waiting + c.asks ds
  | [], c, k => (c.acted_replenish { k with deliveries := [] }).waiting
  | .complete :: rest, c, k => (c.acted_replenish { k with deliveries := rest }).waiting
  | .error e :: rest, c, k => (c.acted_replenish { k with deliveries := rest }).waiting
  | .element y :: rest, c, k => by
    have h := waiting_receive rest ((c.replenish k).1.accept y) (c.replenish k).2
    have hk := (c.acted_replenish k).waiting
    unfold receive asks
    refine Nat.le_trans h ?_
    by_cases hz : c.outstanding = 0
    · rw [if_pos hz] at hk ⊢
      have hc : (c.replenish k).1 = { c with outstanding := c.batch } := by
        unfold replenish; rw [if_pos hz]
      rw [hc]
      omega
    · rw [if_neg hz] at hk ⊢
      have hc : (c.replenish k).1 = c := by
        unfold replenish; rw [if_neg hz]
      rw [hc]
      omega

/-- A poll of a collector takes everything out of the queue; with its result it goes. -/
theorem acted_poll (c : Collector β) (k : Link β) :
    ((c.poll k).1 = none → Link.Acted k k.deliveries (c.asks k.deliveries) (c.poll k).2.2) ∧
    Link.Acted k k.deliveries (c.asks k.deliveries) (c.poll k).2.2.hangUp.leave := by
  have ha : Link.Around k (c.poll k).2.2 := around_receive k.deliveries c k [] rfl
  have hw : (c.poll k).2.2.waiting ≤ k.waiting + c.asks k.deliveries := waiting_receive k.deliveries c k
  refine ⟨fun h => ⟨ha, fun _ => ?_, hw⟩, Link.acted_hangUp ha hw⟩
  rw [show (c.poll k).2.2.deliveries = [] from receive_pending k.deliveries c k h, List.append_nil]

end Collector

/-! ## Moves -/

namespace Session

/-- What a move does to the merge of a session. -/
inductive Performs (s : Session L u) (mv : Move u) : Prop
  | link (k : Link β) : (s.perform mv).merge = { s.merge with link := k } →
      s.merge.link.Acted (s.sees mv) (s.asks mv) k → Performs s mv
  | source (p : InletId) (woken : u.State → Bool) (f : u.State → u.State) (q : Inlet u) (state : u.State)
      (k : Link β) : mv = .adjust p woken f → s.merge.inlets[p]? = some q → q.source = some state →
      (s.perform mv).merge =
        { s.merge with inlets := s.merge.inlets.set p { q with source := some (f state) }, link := k } →
      s.merge.link.Acted (s.sees mv) (s.asks mv) k → Performs s mv
  | poll (fuel : Nat) : mv = .poll fuel → Performs s mv
  | abandon : mv = .abandon → Performs s mv

namespace Performs

variable {s s' : Session L u} {mv : Move u}

/-- A move that does nothing to the merge. -/
theorem idle (h : s.perform mv = s') (hm : s'.merge = s.merge) (hs : s.sees mv = []) : Performs s mv :=
  .link s.merge.link (h ▸ hm) (hs ▸ .refl _ _)

/-- A move that changes the link by `f`. -/
theorem relinks (f : Link β → Link β) (h : s.perform mv = s') (hm : s'.merge = (s.relink f).merge)
    (ha : s.merge.link.Acted (s.sees mv) (s.asks mv) (f s.merge.link)) : Performs s mv :=
  .link (f s.merge.link) (h ▸ hm) ha

/-- A move by which nothing is taken, and which changes the link by `f` or does nothing to the merge. -/
theorem relinksOrIdle (f : Link β → Link β) (hs : s.sees mv = [])
    (hm : (s.perform mv).merge = (s.relink f).merge ∨ (s.perform mv).merge = s.merge)
    (ha : s.merge.link.Acted [] (s.asks mv) (f s.merge.link)) : Performs s mv := by
  rcases hm with hm | hm
  · exact .relinks f rfl hm (hs ▸ ha)
  · exact .idle rfl hm hs

end Performs

/-! ### The consumer -/

theorem performs_request (s : Session L u) (n : Nat) : Performs s (.request n) := by
  refine .relinksOrIdle (·.send (.request n)) rfl ?_ (Link.acted_send _ (.request n))
  rw [perform, request]
  split
  · split
    · exact Or.inr rfl
    · exact Or.inl rfl
  · exact Or.inr rfl

theorem performs_cancel (s : Session L u) : Performs s .cancel := by
  refine .relinksOrIdle (·.send .cancel) rfl ?_ (Link.acted_send _ .cancel)
  rw [perform, cancel]
  split
  · exact Or.inl rfl
  · exact Or.inr rfl

theorem performs_dismiss (s : Session L u) : Performs s .dismiss := by
  refine .relinksOrIdle (·.hangUp.leave) rfl ?_ (Link.acted_hangUp (.refl _) (Nat.le_refl _))
  rw [perform, dismiss]
  split
  · exact Or.inl rfl
  · exact Or.inr rfl

theorem performs_receive (s : Session L u) : Performs s .receive := by
  cases hc : s.consumer with
  | present cancelled =>
    cases hd : s.merge.link.deliveries with
    | cons d rest =>
      have hs : s.sees .receive = [d] := by simp only [sees, receive, hc, hd]
      have h : s.perform .receive = s.relink fun k => { k with deliveries := rest } := by
        simp only [perform, receive, hc, hd]
      exact .relinks _ h rfl (hs ▸ Link.acted_taken [d] hd)
    | nil =>
      have h : s.perform .receive = s := by simp only [perform, receive, hc, hd]
      refine .idle h rfl ?_
      simp only [sees, receive, hc, hd]
      by_cases ha : s.merge.link.attached = true <;> simp [ha]
  | _ =>
    have h : s.perform .receive = s := by simp only [perform, receive, hc]
    exact .idle h rfl (by simp only [sees, receive, hc])

theorem performs_drain (s : Session L u) : Performs s .drain := by
  cases hc : s.consumer with
  | present cancelled =>
    have hs : s.sees .drain = s.merge.link.deliveries := by simp only [sees, drain, hc]
    have h : s.perform .drain = s.relink fun k => { k with deliveries := [] } := by
      simp only [perform, drain, hc]
    exact .relinks _ h rfl (hs ▸ Link.acted_taken _ (List.append_nil _).symm)
  | _ =>
    have h : s.perform .drain = s := by simp only [perform, drain, hc]
    exact .idle h rfl (by simp only [sees, drain, hc])

/-! ### Handles -/

theorem performs_takeHandle (s : Session L u) : Performs s .takeHandle := by
  refine .relinksOrIdle (·.join) rfl ?_ (Link.acted_join _)
  rw [perform, takeHandle]
  split
  · exact Or.inl rfl
  · exact Or.inr rfl

theorem performs_cloneHandle (s : Session L u) (h : Nat) : Performs s (.cloneHandle h) := by
  refine .relinksOrIdle (·.join) rfl ?_ (Link.acted_join _)
  rw [perform, cloneHandle]
  split
  · exact Or.inl rfl
  · exact Or.inr rfl

theorem performs_cancelHandle (s : Session L u) (h : Nat) : Performs s (.cancelHandle h) := by
  refine .relinksOrIdle (·.send .cancel) rfl ?_ (Link.acted_send _ .cancel)
  rw [perform, cancelHandle]
  split
  · exact Or.inl rfl
  · exact Or.inr rfl

theorem performs_dropHandle (s : Session L u) (h : Nat) : Performs s (.dropHandle h) := by
  refine .relinksOrIdle (·.leave) rfl ?_ (Link.acted_leave _)
  rw [perform, dropHandle]
  split
  · exact Or.inl rfl
  · exact Or.inr rfl

/-! ### Sources -/

theorem performs_adjust (s : Session L u) (p : InletId) (woken : u.State → Bool) (f : u.State → u.State) :
    Performs s (.adjust p woken f) := by
  have h : s.perform (.adjust p woken f) = s.adjust p woken f := rfl
  unfold adjust at h
  split at h
  · exact .idle h rfl rfl
  · rename_i q hq
    split at h
    · exact .idle h rfl rfl
    · rename_i state hs
      dsimp only at h
      split at h
      · exact .source p woken f q state _ rfl hq hs (congrArg merge h) (Link.acted_wake _)
      · exact .source p woken f q state s.merge.link rfl hq hs (congrArg merge h) (.refl _ _)

/-! ### Collecting -/

theorem performs_beginCollect (s : Session L u) (batch : Nat) : Performs s (.beginCollect batch) := by
  have h : s.perform (.beginCollect batch) = s.beginCollect batch := rfl
  unfold beginCollect at h
  split at h <;> exact .idle h rfl rfl

/-- A collector that can go on is polled. -/
theorem performs_pollCollector_of_runnable {s : Session L u} {c : Collector β} (hc : s.consumer = .collecting c)
    (hr : c.isRunnable s.merge.link = true) : Performs s .pollCollector := by
  obtain ⟨hnone, hsome⟩ := c.acted_poll s.merge.link
  have ha : s.asks .pollCollector = c.asks s.merge.link.deliveries := by simp only [asks, hc]
  have hs : s.sees .pollCollector = s.merge.link.deliveries := by simp only [sees, hc, if_pos hr]
  cases hp : c.poll s.merge.link with
  | mk r ck =>
    rw [hp] at hnone hsome
    cases r with
    | none =>
      have h : (s.perform .pollCollector).merge = { s.merge with link := ck.2 } := by
        simp only [perform, pollCollector, hc, if_pos hr, hp]
        rfl
      exact .link ck.2 h (hs ▸ ha ▸ hnone rfl)
    | some r =>
      have h : (s.perform .pollCollector).merge = { s.merge with link := ck.2.hangUp.leave } := by
        simp only [perform, pollCollector, hc, if_pos hr, hp]
        rfl
      exact .link _ h (hs ▸ ha ▸ hsome)

theorem performs_pollCollector (s : Session L u) : Performs s .pollCollector := by
  cases hc : s.consumer with
  | collecting c =>
    by_cases hr : c.isRunnable s.merge.link = true
    · exact performs_pollCollector_of_runnable hc hr
    · have h : s.perform .pollCollector = s := by simp only [perform, pollCollector, hc, if_neg hr]
      exact .idle h rfl (by simp only [sees, hc, if_neg hr])
  | _ =>
    have h : s.perform .pollCollector = s := by simp only [perform, pollCollector, hc]
    exact .idle h rfl (by simp only [sees, hc])

/-! ### All moves -/

/-- A move acts on the link, changes a source, polls the run or gives it up. -/
theorem performs (s : Session L u) (mv : Move u) : Performs s mv := by
  cases mv with
  | request n => exact s.performs_request n
  | cancel => exact s.performs_cancel
  | dismiss => exact s.performs_dismiss
  | receive => exact s.performs_receive
  | drain => exact s.performs_drain
  | takeHandle => exact s.performs_takeHandle
  | hold => exact .relinks (·.join) rfl rfl (Link.acted_join _)
  | cloneHandle h => exact s.performs_cloneHandle h
  | cancelHandle h => exact s.performs_cancelHandle h
  | dropHandle h => exact s.performs_dropHandle h
  | adjust p woken f => exact s.performs_adjust p woken f
  | poll fuel => exact .poll fuel rfl
  | abandon => exact .abandon rfl
  | beginCollect batch => exact s.performs_beginCollect batch
  | pollCollector => exact s.performs_pollCollector

end Session
end StreamMerge
