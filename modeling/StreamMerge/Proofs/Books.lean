import StreamMerge.Proofs.Delivery

/-!
# The books of a merge

The figures that credit is about, as `Books`. A change of the merge makes entries in its books as listed in
`Books.Act`, and these keep them `Solvent`: unused credit and the elements flushed make up what was granted,
unless the counter ran into its limit.
-/
namespace StreamMerge

variable {α β : Type} {L : Strategy α β} {u : Source α}

open Relation (ReflTransGen)

/-- The element of a delivery. -/
def Delivery.element? : Delivery β → Option β
  | .element y => some y
  | _ => none

/-! ## Books -/

/-- The figures that credit is about. -/
structure Books where
  /-- The credit taken so far. -/
  granted : Nat
  /-- The credit in the signals that wait to be taken. -/
  waiting : Nat
  /-- The credit not used yet. -/
  remaining : Nat
  /-- How many elements were emitted. -/
  emitted : Nat
  /-- How many of them are still unsent. -/
  unsent : Nat
  /-- How many elements were delivered. -/
  delivered : Nat

namespace Books

/-- How many of the emitted elements were flushed. -/
def flushed (b : Books) : Nat := b.emitted - b.unsent

/-- Everything that can happen to the books of a merge. -/
inductive Act : Books → Books → Prop
  | take (b : Books) (n rest : Nat) : b.waiting = n + rest →
      Act b { b with
        granted := b.granted + n, waiting := rest, remaining := min (b.remaining + n) Credit.limit }
  | emit (b : Books) (n : Nat) : b.unsent = 0 → Act b { b with emitted := b.emitted + n, unsent := n }
  | flush (b : Books) (delivered : Nat) : b.unsent = 1 → 0 < b.remaining → delivered ≤ b.delivered + 1 →
      Act b { b with unsent := 0, remaining := b.remaining - 1, delivered }
  /-- Signals are lost. -/
  | forget (b : Books) (rest : Nat) : rest ≤ b.waiting → Act b { b with waiting := rest }

/-- The credit that is left and what was flushed make up the credit granted, but for what was lost at the
limit. -/
structure Solvent (b : Books) : Prop where
  unsent_le : b.unsent ≤ b.emitted
  bounded : b.remaining + b.flushed ≤ b.granted
  exact : b.granted ≤ Credit.limit → b.remaining + b.flushed = b.granted
  delivered_le : b.delivered ≤ b.flushed

theorem Solvent.act {b b' : Books} (h : b.Solvent) (ha : Act b b') : b'.Solvent := by
  obtain ⟨hu, hb, he, hd⟩ := h
  unfold flushed at hb he hd
  cases ha with
  | take n rest =>
    refine ⟨hu, ?_, fun hl => ?_, hd⟩
    · show min (b.remaining + n) Credit.limit + (b.emitted - b.unsent) ≤ b.granted + n
      omega
    · have hl : b.granted + n ≤ Credit.limit := hl
      have := he (by omega)
      show min (b.remaining + n) Credit.limit + (b.emitted - b.unsent) = b.granted + n
      omega
  | emit n hz =>
    have hf : b.emitted + n - n = b.emitted - b.unsent := by omega
    refine ⟨Nat.le_add_left n b.emitted, ?_, fun hl => ?_, ?_⟩
    · show b.remaining + (b.emitted + n - n) ≤ b.granted
      omega
    · have := he hl
      show b.remaining + (b.emitted + n - n) = b.granted
      omega
    · show b.delivered ≤ b.emitted + n - n
      omega
  | flush delivered ho hp hle =>
    refine ⟨Nat.zero_le _, ?_, fun hl => ?_, ?_⟩
    · show b.remaining - 1 + (b.emitted - 0) ≤ b.granted
      omega
    · have := he hl
      show b.remaining - 1 + (b.emitted - 0) = b.granted
      omega
    · show delivered ≤ b.emitted - 0
      omega
  | forget rest => exact ⟨hu, hb, he, hd⟩

theorem Solvent.acts {b b' : Books} (h : b.Solvent) (ha : ReflTransGen Act b b') : b'.Solvent := by
  induction ha with
  | refl => exact h
  | tail _ ha ih => exact ih.act ha

theorem granted_le_acts {b b' : Books} (ha : ReflTransGen Act b b') : b.granted ≤ b'.granted := by
  induction ha with
  | refl => exact Nat.le_refl _
  | tail _ ha ih =>
    refine Nat.le_trans ih ?_
    cases ha <;> dsimp only <;> omega

/-- Credit comes from nowhere but the signals. -/
theorem pledged_acts {b b' : Books} (ha : ReflTransGen Act b b') :
    b'.granted + b'.waiting ≤ b.granted + b.waiting := by
  induction ha with
  | refl => exact Nat.le_refl _
  | tail _ ha ih =>
    refine Nat.le_trans ?_ ih
    cases ha with
    | take n rest hw => dsimp only; omega
    | emit => exact Nat.le_refl _
    | flush => exact Nat.le_refl _
    | forget rest hw => dsimp only; omega

end Books

namespace Merge

/-- The books of a merge. -/
def books (m : Merge L u) : Books where
  granted := m.granted
  waiting := m.link.waiting
  remaining := m.credit.remaining
  emitted := m.emissions.length
  unsent := m.unsent.toList.length
  delivered := (m.deliveries.filterMap Delivery.element?).length

/-! ## What changes the books -/

/-- Signals at most are lost. -/
theorem books_forget {m m' : Merge L u} (hg : m'.granted = m.granted) (he : m'.emissions = m.emissions)
    (hd : m'.deliveries.filterMap Delivery.element? = m.deliveries.filterMap Delivery.element?)
    (hc : m'.credit = m.credit) (hu : m'.unsent = m.unsent) (hw : m'.books.waiting ≤ m.books.waiting) :
    ReflTransGen Books.Act m.books m'.books := by
  have h : m'.books = { m.books with waiting := m'.books.waiting } := by
    unfold books
    rw [hg, he, hd, hc, hu]
  rw [h]
  exact .single (.forget m.books _ hw)

/-- An entry that makes none in the books. -/
def isUnbooked : Entry L → Prop
  | .took (.request _) | .emitted _ | .delivered _ => False
  | _ => True

theorem books_of_extends {m m' : Merge L u} (hx : Extends isUnbooked m m') (hc : m'.credit = m.credit)
    (hu : m'.unsent = m.unsent) (hw : m'.books.waiting ≤ m.books.waiting) :
    ReflTransGen Books.Act m.books m'.books := by
  have hfalse : ∀ e : Entry L, isUnbooked e → e.granted? = none ∧ e.emitted? = none ∧ e.delivered? = none := by
    intro e he
    cases e with
    | took s => cases s <;> first | exact ⟨rfl, rfl, rfl⟩ | cases he
    | _ => first | exact ⟨rfl, rfl, rfl⟩ | cases he
  refine books_forget ?_ (hx.filterMap_eq fun e he => (hfalse e he).2.1) ?_ hc hu hw
  · exact congrArg List.sum (hx.filterMap_eq fun e he => (hfalse e he).1)
  · exact congrArg (List.filterMap Delivery.element?) (hx.filterMap_eq fun e he => (hfalse e he).2.2)

theorem isUnbooked_of_isReading {e : Entry L} (h : isReading e) : isUnbooked e := by
  cases e <;> first | exact trivial | cases h

theorem Frame.waiting {m m' : Merge L u} (h : Frame m m') : m'.link.waiting = m.link.waiting := by
  obtain ⟨n, hn⟩ := h.signals
  unfold Link.waiting
  rw [hn, List.map_append, List.map_replicate, List.sum_append]
  simp [Signal.amount]

theorem element?_farewell (v : Verdict) : (farewell (β := β) v).toList.filterMap Delivery.element? = [] := by
  cases v with
  | ok outcome => cases outcome <;> rfl
  | error e => rfl

theorem element?_parting (m : Merge L u) : m.parting.filterMap Delivery.element? = [] := by
  unfold parting
  cases m.verdict? with
  | none => rfl
  | some v => exact element?_farewell v

theorem granted?_of_isClosing {e : Entry L} (h : isClosing e) : e.granted? = none := by
  cases e <;> first | rfl | cases h

theorem books_finish (m : Merge L u) (v : Verdict) : ReflTransGen Books.Act m.books (m.finish v).books := by
  have h := finish_spec m v
  refine books_forget (congrArg List.sum (h.history.filterMap_eq fun _ => granted?_of_isClosing))
    (emissions_of_extends (h.history.mono fun _ he => emitted?_of_isSideline (Entry.isSideline_of_isClosing he)))
    ?_ (credit_of_core h.core) (unsent_of_core h.core) ?_
  · rw [h.deliveries, List.filterMap_append]
    split
    · rw [element?_farewell, List.append_nil]
    · exact List.append_nil _
  · show (List.map Signal.amount (m.finish v).link.signals).sum ≤ _
    rw [h.signals]
    exact Nat.zero_le _

theorem waiting_close (m : Merge L u) (closing : Option Closing) :
    (m.close closing).books.waiting ≤ m.books.waiting := by
  unfold close
  split
  · exact Nat.le_refl _
  · exact Nat.le_refl _
  · rename_i e
    show (List.map Signal.amount (m.finish (.error e)).link.signals).sum ≤ _
    rw [(finish_spec m (.error e)).signals]
    exact Nat.zero_le _

theorem granted_of_serves {m m' : Merge L u} {choice : Choice} {p : InletId} {a : Arrival α}
    {reads outcome : List (Entry L)} (h : Serves m choice p a reads outcome m') : m'.granted = m.granted := by
  have hx : Extends (fun e => e.granted? = none) m m' := by
    refine ⟨_, h.history.trans (List.append_assoc ..), fun e he => ?_⟩
    rcases List.mem_append.1 he with he | he
    · rcases h.isRead e he with he | rfl
      · cases e <;> first | rfl | cases he
      · rfl
    · rcases List.mem_cons.1 he with rfl | he
      · rfl
      · rcases List.mem_append.1 he with he | he
        · have := isCall_handling he
          cases e <;> first | rfl | cases this
        · have := h.isOutcome e he
          cases e <;> first | rfl | cases this
  exact congrArg List.sum (hx.filterMap_eq fun _ he => he)

theorem Tries.books {m m' : Merge L u} (h : Tries m m') (hb : m.Balanced) (hc : m.Coherent) :
    ReflTransGen Books.Act m.books m'.books := by
  cases h with
  | waits choice order =>
    have hf := frame_seek m order
    exact books_of_extends ((extends_seek m order).mono fun _ => isUnbooked_of_isReading) hf.credit hf.unsent
      (Nat.le_of_eq hf.waiting)
  | accepts choice order p a q hst hp hq ha =>
    obtain ⟨reads, outcome, hs⟩ := serves_of_found hb hst hp hq ha
    obtain ⟨m₁, closing, heq, hs₁, hl⟩ := dispatch_close ((m.seek order).2.putInlet p q.take.2) choice p a
    have hf := (frame_seek m order).trans (frame_putInlet (m.seek order).2 p q.take.2)
    have hx := ((extends_seek m order).mono fun _ => delivered?_of_isReading).trans
      ((extends_putInlet (m.seek order).2 p q.take.2).mono fun e he => by rw [he]; rfl)
    have hdel := (((Sends.of_extends hx hf.deliveries hf.receiving).trans hs₁).trans
      (sends_close m₁ closing)).deliveries
    have hwait : m₁.books.waiting = m.books.waiting := (congrArg Link.waiting hl).trans hf.waiting
    have hu : m.unsent = none := hc.unsent_of_attempting hst
    have hunsent := hs.unsent
    have hem := emissions_of_serves hs
    have hgr := granted_of_serves hs
    have hcr := hs.credit
    rw [heq] at hunsent hem hgr hcr ⊢
    have hemit : Books.Act m.books { m.books with
        emitted := m.books.emitted + (m.transition p a).emission?.toList.length
        unsent := (m.transition p a).emission?.toList.length } :=
      .emit m.books _ (by show m.unsent.toList.length = 0; rw [hu]; rfl)
    have hbooks : (m₁.close closing).books = { m.books with
        emitted := m.books.emitted + (m.transition p a).emission?.toList.length
        unsent := (m.transition p a).emission?.toList.length
        waiting := (m₁.close closing).books.waiting } := by
      have hel : (m₁.close closing).deliveries.filterMap Delivery.element? =
          m.deliveries.filterMap Delivery.element? := by
        rw [hdel, List.nil_append, List.nil_append, List.filterMap_append]
        split
        · rw [element?_parting, List.append_nil]
        · exact List.append_nil _
      unfold Merge.books
      rw [hunsent, hem, hgr, hcr, hel, hu]
      simp
    rw [hbooks]
    exact .tail (.single hemit) (.forget _ _ (Nat.le_trans (waiting_close m₁ closing) (Nat.le_of_eq hwait)))

/-- An emitted element is flushed, and delivered if it is received. -/
theorem books_flush {m m' : Merge L u} {y : β} (hu : m.unsent = some y) (hc : m.credit.isPositive = true)
    (hg : m'.granted = m.granted) (he : m'.emissions = m.emissions) (hu' : m'.unsent = none)
    (hc' : m'.credit = m.credit.consume) (hs : m'.link.signals = m.link.signals)
    (hd : (m'.deliveries.filterMap Delivery.element?).length ≤
      (m.deliveries.filterMap Delivery.element?).length + 1) : ReflTransGen Books.Act m.books m'.books := by
  have h : m'.books = { m.books with
      unsent := 0, remaining := m.books.remaining - 1, delivered := m'.books.delivered } := by
    have hw : m'.link.waiting = m.link.waiting := congrArg (fun ss => (ss.map Signal.amount).sum) hs
    unfold books
    rw [hg, he, hu', hc', hw]
    rfl
  rw [h]
  refine .single (.flush m.books _ ?_ (Credit.isPositive_iff _ |>.1 hc) hd)
  show m.unsent.toList.length = 1
  rw [hu]
  rfl

theorem Ends.books {m m' : Merge L u} {v : Verdict} (h : Ends m m' v) :
    ReflTransGen Books.Act m.books m'.books := by
  cases h with
  | withdrawn rest _ hs =>
    refine books_of_extends (extends_note { m with link := { m.link with signals := rest } }
      (e := .took .cancel) trivial) rfl rfl ?_
    show (rest.map Signal.amount).sum ≤ (m.link.signals.map Signal.amount).sum
    rw [hs, List.map_cons, List.sum_cons]
    exact Nat.le_add_left _ _
  | undeliverable closing y _ hc hu => exact books_flush hu hc rfl rfl rfl rfl rfl (Nat.le_succ _)
  | stuck => exact books_of_extends (extends_note m (e := .logged _) trivial) rfl rfl (Nat.le_refl _)
  | _ => exact .refl

theorem Step.books {m m' : Merge L u} (h : Step m m') (hb : m.Balanced) (hc : m.Coherent) :
    ReflTransGen Books.Act m.books m'.books := by
  cases h with
  | opens => exact books_of_extends (extends_opening isUnbooked m trivial trivial) rfl rfl (Nat.le_refl _)
  | turns => exact .refl
  | starves => exact .refl
  | hears n rest _ hs =>
    have hw : m.books.waiting = n + (rest.map Signal.amount).sum := by
      show (m.link.signals.map Signal.amount).sum = _
      rw [hs]
      rfl
    have hx : ({ m with credit := m.credit.grant n, link := { m.link with signals := rest } }.note
        (.took (.request n)) : Merge L u).books = { m.books with
        granted := m.books.granted + n, waiting := (rest.map Signal.amount).sum
        remaining := min (m.books.remaining + n) Credit.limit } := by
      unfold Merge.books granted emissions deliveries
      rw [history_note]
      simp [history, Entry.granted?, Entry.emitted?, Entry.delivered?, note, Link.waiting]
    rw [hx]
    exact .single (.take m.books n _ hw)
  | delivers closing y _ hpos hu hr =>
    have hd := delivered_spec closing y hr
    refine books_flush hu hpos ?_ ?_ hd.unsent hd.credit (by rw [hd.link]) ?_
    · exact congrArg List.sum ((hd.extends_of (fun e => e.granted? = none) rfl).filterMap_eq fun _ he => he)
    · exact emissions_of_extends (hd.extends_of (fun e => e.emitted? = none) rfl)
    · rw [hd.deliveries, List.filterMap_append, List.length_append]
      exact Nat.le_refl _
  | tries m' _ _ h => exact h.books hb hc
  | ends m₁ v h => exact h.books.trans (books_finish m₁ v)
  | rests => exact .refl

theorem Change.solvent {m m' : Merge L u} (h : Change m m') (hb : m.Balanced) (hc : m.Coherent)
    (hs : m.books.Solvent) : m'.books.Solvent := by
  cases h with
  | step => exact hs.acts ((step_spec m).books hb hc)
  | rouse => exact hs
  | relink => exact ⟨hs.unsent_le, hs.bounded, hs.exact, hs.delivered_le⟩
  | adjust => exact hs
  | abandon =>
    have hf := frame_releaseAll m
    have hx : Extends isUnbooked m m.releaseAll := (extends_releaseAll m).mono fun e ⟨p, he⟩ => he ▸ trivial
    have h := hs.acts (books_of_extends hx hf.credit hf.unsent (Nat.le_of_eq hf.waiting))
    exact ⟨h.unsent_le, h.bounded, h.exact, h.delivered_le⟩

theorem Fresh.solvent {m : Merge L u} {sources : List u.State} (h : Fresh m sources) : m.books.Solvent := by
  have hb : m.books = ⟨0, 0, 0, 0, 0, 0⟩ := by
    unfold books granted emissions deliveries
    rw [h.history, h.link, h.credit, h.unsent]
    rfl
  rw [hb]
  exact ⟨Nat.le_refl _, Nat.le_refl _, fun _ => rfl, Nat.le_refl _⟩

theorem play_solvent {settings : Settings} {sources : List u.State} {m : Merge L u}
    (hm : setUp L u settings sources = .ok m) (moves : List (Move u)) :
    ((Session.start m).play moves).merge.books.Solvent :=
  play_invariant (motive := fun m => m.books.Solvent) hm (setUp_fresh hm).solvent
    (fun h hb hc hs => h.solvent hb hc hs) moves

/-- As long as the consumer receives, what was flushed is what was delivered. -/
theorem delivered_eq_flushed {settings : Settings} {sources : List u.State} {m : Merge L u}
    (hm : setUp L u settings sources = .ok m) (moves : List (Move u))
    (hr : ((Session.start m).play moves).merge.link.receiving = true) :
    (((Session.start m).play moves).merge.deliveries.filterMap Delivery.element?).length =
      ((Session.start m).play moves).merge.books.flushed := by
  obtain ⟨sent, hd, hem⟩ := play_truthful hm moves hr
  have hsent : (sent.map Delivery.element).filterMap Delivery.element? = sent := by
    rw [List.filterMap_map]
    exact List.filterMap_some
  unfold Books.flushed books
  dsimp only
  rw [hd, hem, List.filterMap_append, hsent, element?_parting, List.append_nil, List.length_append]
  omega

end Merge
end StreamMerge
