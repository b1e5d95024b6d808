import Mathlib.Data.List.Induction
import StreamMerge.Proofs.Interleaving
import StreamMerge.Proofs.Rotation

/-!
# Bounded bypass

A strategy that forwards everything never reads ahead. So an inlet is served only after those that come first have
been asked, in the same attempt, and have had nothing yet: the history of a merge is `Courteous`. Whoever is always
ready and open is therefore never passed over by an inlet whose turn comes later, and moves up with every element of
another inlet (`Courteous.rank_le`), up to its own turn (`Courteous.mem_rotated`).
-/
namespace StreamMerge

variable {α β : Type} {L : Strategy α β} {u : Source α}

/-! ## What a history tells -/

namespace Choice

/-- The choice names all of `count` inlets, of which those from `lo` on take turns. -/
structure Rotates (c : Choice) (lo count : Nat) : Prop where
  inlets : c.inlets = List.range count
  advances : ∀ p, c.advances p = decide (lo ≤ p)

theorem nodup_readingOrder (c : Choice) (turn : Nat) (isOpen : InletId → Bool) :
    (c.readingOrder turn isOpen).Nodup := by
  cases c with
  | one p =>
    simp only [readingOrder]
    split <;> simp
  | any ps => exact nodup_rotation turn isOpen ps
  | preferred p ps =>
    refine List.nodup_append.2 ⟨by split <;> simp, (nodup_rotation turn isOpen ps).filter _, fun q hq r hr => ?_⟩
    have hne : r ≠ p := of_decide_eq_true (List.mem_filter.1 hr).2
    split at hq
    · exact List.mem_singleton.1 hq ▸ hne.symm
    · cases hq

/-- The inlets that take turns stand in the reading order in the order of their turns. -/
theorem pairwise_readingOrder (c : Choice) (turn : Nat) (isOpen : InletId → Bool) :
    ((c.readingOrder turn isOpen).filter c.advances).Pairwise (Precedes turn) := by
  cases c with
  | one p =>
    have hnone : ((one p).readingOrder turn isOpen).filter (one p).advances = [] :=
      List.filter_eq_nil_iff.2 fun q _ => Bool.false_ne_true
    rw [hnone]
    exact List.Pairwise.nil
  | any ps => exact (pairwise_rotation turn isOpen ps).filter _
  | preferred p ps =>
    have hfirst : (if isOpen p then [p] else []).filter (preferred p ps).advances = [] := by
      refine List.filter_eq_nil_iff.2 fun q hq => ?_
      split at hq
      · simp [List.mem_singleton.1 hq, advances]
      · cases hq
    unfold readingOrder
    rw [List.filter_append, hfirst, List.nil_append]
    exact ((pairwise_rotation turn isOpen ps).filter _).filter _

/-- Of two inlets that take turns, the one that stands first comes first. -/
theorem precedes_of_readingOrder {c : Choice} {turn : Nat} {isOpen : InletId → Bool} {pre post : List InletId}
    {k p : InletId} (h : c.readingOrder turn isOpen = pre ++ k :: post) (hk : c.advances k = true)
    (hp : c.advances p = true) (hmem : p ∈ post) : Precedes turn k p := by
  have hpair := c.pairwise_readingOrder turn isOpen
  rw [h, List.filter_append, List.filter_cons_of_pos hk] at hpair
  exact (List.pairwise_cons.1 (List.pairwise_append.1 hpair).2.1).1 p (List.mem_filter.2 ⟨hmem, hp⟩)

end Choice

namespace Entry

/-- The inlet that is served in its turn. -/
def rotated? : Entry L → Option InletId
  | .arrived c k (.element _) => if c.advances k then some k else none
  | _ => none

/-- Where the rotation stands after an entry. -/
def turned (turn : Nat) (e : Entry L) : Nat := (e.rotated?.map (· + 1)).getD turn

/-- The source of `p` is given up. -/
def drops (p : InletId) : Entry L → Bool
  | .dropped q => q = p
  | _ => false

/-- What the source of `p` answered to a poll. -/
def answer? (p : InletId) : Entry L → Option (Reply α)
  | .polled q r => if q = p then some r else none
  | _ => none

theorem rotated?_of_not_isArrival {e : Entry L} (h : ¬ e.isArrival) : e.rotated? = none := by
  cases e <;> first | rfl | exact absurd trivial h

end Entry

/-- The inlets that are served in their turn, in order. -/
def rotated (es : List (Entry L)) : List InletId := es.filterMap Entry.rotated?

/-- Where the rotation stands after a history that it began at the first inlet. -/
def turnAfter (es : List (Entry L)) : Nat := es.foldl Entry.turned 0

/-- Of `count` inlets, `p` is one whose source has not been given up. -/
def openAfter (count : Nat) (es : List (Entry L)) (p : InletId) : Bool := decide (p < count) && !es.any (Entry.drops p)

section
variable {es es' : List (Entry L)} {e : Entry L} {p : InletId} {count : Nat}

theorem turnAfter_concat (es : List (Entry L)) (e : Entry L) : turnAfter (es ++ [e]) = e.turned (turnAfter es) :=
  List.foldl_concat ..

theorem turnAfter_append_of_none (es : List (Entry L)) (h : ∀ e ∈ es', e.rotated? = none) :
    turnAfter (es ++ es') = turnAfter es := by
  induction es' using List.reverseRecOn with
  | nil => rw [List.append_nil]
  | append_singleton es' e ih =>
    have hstay : e.turned (turnAfter (es ++ es')) = turnAfter (es ++ es') := by
      unfold Entry.turned
      rw [h e (by simp)]
      rfl
    rw [← List.append_assoc, turnAfter_concat, hstay, ih fun e' he' => h e' (List.mem_append_left _ he')]

theorem openAfter_eq_true {p : Nat} : openAfter count es p = true ↔ p < count ∧ .dropped p ∉ es := by
  have hany : es.any (Entry.drops p) = true ↔ .dropped p ∈ es := by
    rw [List.any_eq_true]
    constructor
    · rintro ⟨e, he, hdrops⟩
      cases e with
      | dropped q => exact of_decide_eq_true hdrops ▸ he
      | _ => cases hdrops
    · exact fun h => ⟨_, h, decide_eq_true rfl⟩
  rw [openAfter, Bool.and_eq_true, decide_eq_true_eq, Bool.not_eq_true', ← Bool.not_eq_true, hany]

theorem openAfter_append_of_none (count : Nat) (es : List (Entry L)) (h : ∀ e ∈ es', ∀ p, e.drops p = false) :
    openAfter count (es ++ es') = openAfter count es := by
  funext p
  have hany : es'.any (Entry.drops p) = false := List.any_eq_false.2 fun e he => by simp [h e he p]
  rw [openAfter, List.any_append, hany, Bool.or_false, openAfter]

end

/-! ## Courtesy -/

/-- After the history `es`, the inlet `k` may be served under the choice `c`: those that come first have been asked,
since anybody was served, and had nothing yet. -/
structure Entitled (lo count : Nat) (es : List (Entry L)) (c : Choice) (k : InletId) : Prop where
  rotates : c.Rotates lo count
  asked : ∃ before reads pre post, es = before ++ reads ∧ (∀ e ∈ reads, Merge.isReading e) ∧
    c.readingOrder (turnAfter es) (openAfter count es) = pre ++ k :: post ∧
    ∀ p ∈ pre, ∃ again, .polled p (.pending again) ∈ reads

/-- Whoever is entitled after others were served comes before `p` in the rotation, if since then `p` was open and always
ready. -/
theorem Entitled.precedes {lo count : Nat} {before during : List (Entry L)} {e : Entry L} {c : Choice} {k p : InletId}
    (h : Entitled lo count (before ++ e :: during) c k) (hk : c.advances k = true) (he : e.served?.isSome = true)
    (hlo : lo ≤ p) (hkp : k ≠ p) (hopen : openAfter count (before ++ e :: during) p = true)
    (hready : ∀ r, .polled p r ∈ during → r.element?.isSome = true) :
    Precedes (turnAfter (before ++ e :: during)) k p := by
  obtain ⟨before', reads, pre, post, hreads, hreading, horder, hasked⟩ := h.asked
  -- What was read since anybody was served was read after `e`.
  have hduring : ∀ e₁ ∈ reads, e₁ ∈ during := by
    rcases Merge.split_append hreads.symm with ⟨zs, -, rfl⟩ | ⟨zs, -, rfl⟩
    · exact fun e₁ he₁ => List.mem_append_right zs he₁
    · have hread := Entry.not_isArrival_of_isReading (hreading e (by simp))
      rw [Entry.served?_of_not_isArrival hread] at he
      cases he
  have hmem : p ∈ pre ++ k :: post := horder ▸ Choice.mem_readingOrder.2
    ⟨by rw [h.rotates.inlets]; exact List.mem_range.2 (openAfter_eq_true.1 hopen).1, hopen⟩
  rcases List.mem_append.1 hmem with hpre | hpost
  · obtain ⟨again, hpolled⟩ := hasked p hpre
    cases hready _ (hduring _ hpolled)
  · rcases List.mem_cons.1 hpost with rfl | hpost
    · exact absurd rfl hkp
    · exact Choice.precedes_of_readingOrder horder hk (by rw [h.rotates.advances]; exact decide_eq_true hlo) hpost

/-- Only those are served that are entitled to it. -/
def Courteous (lo count : Nat) (es : List (Entry L)) : Prop :=
  ∀ before c k x after, es = before ++ .arrived c k (.element x) :: after → Entitled lo count before c k

namespace Courteous

variable {lo count : Nat} {es es' : List (Entry L)}

theorem append_of_none (h : Courteous lo count es) (h' : ∀ e ∈ es', e.served? = none) :
    Courteous lo count (es ++ es') := by
  intro before c k x after heq
  rcases Merge.split_append heq with ⟨zs, hes, -⟩ | ⟨zs, -, hes'⟩
  · exact h before c k x zs hes
  · have hserved : (.arrived c k (.element x) : Entry L).served? = none := h' _ (by rw [hes']; simp)
    cases hserved

theorem append_arrived (h : Courteous lo count es) {c : Choice} {k : InletId} (he : Entitled lo count es c k) (x : α) :
    Courteous lo count (es ++ [.arrived c k (.element x)]) := by
  intro before c' k' x' after heq
  rcases Merge.split_append heq with ⟨zs, hes, -⟩ | ⟨zs, hbefore, hlast⟩
  · exact h before c' k' x' zs hes
  · rcases zs with _ | ⟨z, zs⟩
    · cases hlast
      rwa [hbefore, List.append_nil]
    · exact absurd (congrArg List.length hlast) (by simp)

/-- Who is served in its turn is one of the inlets that take turns. -/
theorem rotated_spec (h : Courteous lo count es) {before after : List (Entry L)} {e : Entry L} {k : Nat}
    (heq : es = before ++ e :: after) (hk : e.rotated? = some k) :
    ∃ c, Entitled lo count before c k ∧ c.advances k = true ∧ lo ≤ k ∧ k < count := by
  cases e with
  | arrived c k' a =>
    cases a with
    | element x =>
      have hadvances : c.advances k' = true ∧ k' = k := by
        simpa [Entry.rotated?] using hk
      obtain ⟨hadv, rfl⟩ := hadvances
      have he := h before c k' x after heq
      obtain ⟨_, _, pre, post, -, -, horder, -⟩ := he.asked
      have hmem : k' ∈ c.readingOrder (turnAfter before) (openAfter count before) := horder ▸ by simp
      refine ⟨c, he, hadv, ?_, (openAfter_eq_true.1 (Choice.mem_readingOrder.1 hmem).2).1⟩
      rw [he.rotates.advances] at hadv
      exact of_decide_eq_true hadv
    | _ => cases hk
  | _ => cases hk

/-- **Whoever is ready moves up.** While `p` is open and always ready, and others are served in their turns, it moves up
with each of them. -/
theorem rank_le (h : Courteous lo count es) {before during after : List (Entry L)} {e : Entry L} {p : Nat}
    (heq : es = before ++ e :: during ++ after) (he : e.served?.isSome = true) (hlo : lo ≤ p)
    (hturn : turnAfter (before ++ [e]) ≤ count) (hopen : openAfter count (before ++ e :: during) p = true)
    (hready : ∀ r, .polled p r ∈ during → r.element?.isSome = true) (hp : p ∉ rotated during) :
    turnAfter (before ++ e :: during) ≤ count ∧
      (rotated during).length + rank (count - lo) (turnAfter (before ++ e :: during) - lo) (p - lo) ≤
        rank (count - lo) (turnAfter (before ++ [e]) - lo) (p - lo) := by
  induction during using List.reverseRecOn generalizing after with
  | nil => exact ⟨hturn, by simp [rotated]⟩
  | append_singleton during e' ih =>
    have hcons : before ++ e :: (during ++ [e']) = before ++ e :: during ++ [e'] := by simp
    have hrotated : rotated (during ++ [e']) = rotated during ++ e'.rotated?.toList := by
      rw [rotated, List.filterMap_append]
      cases hk : e'.rotated? <;> simp [hk, rotated]
    obtain ⟨hp, hlast⟩ : p ∉ rotated during ∧ e'.rotated? ≠ some p := by
      rw [hrotated, List.mem_append, not_or] at hp
      exact ⟨hp.1, fun hk => hp.2 (by rw [hk]; simp)⟩
    rw [hcons] at hopen heq ⊢
    rw [hrotated, List.length_append, turnAfter_concat]
    have hopen' : openAfter count (before ++ e :: during) p = true := by
      rw [openAfter_eq_true] at hopen ⊢
      exact ⟨hopen.1, fun hmem => hopen.2 (List.mem_append_left _ hmem)⟩
    have hsplit : es = before ++ e :: during ++ e' :: after := by rw [heq, List.append_assoc]; rfl
    obtain ⟨hturn', hle⟩ := ih hsplit hopen' (fun r hr => hready r (List.mem_append_left _ hr)) hp
    unfold Entry.turned
    cases hk : e'.rotated? with
    | none => exact ⟨hturn', by simpa using hle⟩
    | some k =>
      obtain ⟨c, hentitled, hadvances, hlok, hlt⟩ := h.rotated_spec hsplit hk
      have hprec : Precedes (turnAfter (before ++ e :: during)) k p :=
        hentitled.precedes hadvances he hlo (fun hkp => hlast (hkp ▸ hk)) hopen'
          fun r hr => hready r (List.mem_append_left _ hr)
      have hshift : Precedes (turnAfter (before ++ e :: during) - lo) (k - lo) (p - lo) := by
        unfold Precedes at hprec ⊢
        omega
      have hlt' : rank (count - lo) (k - lo + 1) (p - lo) <
          rank (count - lo) (turnAfter (before ++ e :: during) - lo) (p - lo) :=
        rank_succ_lt (by omega) (by omega) hshift
      rw [← Nat.sub_add_comm hlok] at hlt'
      refine ⟨hlt, ?_⟩
      show _ + 1 + rank (count - lo) (k + 1 - lo) (p - lo) ≤ _
      omega

/-- Those that are served in their turn are those that take turns. -/
theorem rotated_eq_filter (h : Courteous lo count es) {before during after : List (Entry L)}
    (heq : es = before ++ during ++ after) : rotated during = (served during).filter fun k => lo ≤ k := by
  unfold rotated served
  rw [List.filter_filterMap]
  refine List.filterMap_congr fun e he => ?_
  obtain ⟨pre, post, rfl⟩ := List.append_of_mem he
  cases e with
  | arrived c k a =>
    cases a with
    | element x =>
      have hentitled := h (before ++ pre) c k x (post ++ after) (by rw [heq]; simp)
      simp [Entry.rotated?, Entry.served?, hentitled.rotates.advances k, Option.filter]
    | _ => rfl
  | _ => rfl

/-- Where all inlets take turns, everybody who is served is served in its turn. -/
theorem rotated_eq_served (h : Courteous 0 count es) {before during after : List (Entry L)}
    (heq : es = before ++ during ++ after) : rotated during = served during := by
  rw [h.rotated_eq_filter heq]
  exact List.filter_eq_self.2 fun k _ => decide_eq_true (Nat.zero_le k)

/-- Who has just had its turn is last. -/
theorem rank_succ_lt_of_ne {n k p : Nat} (hk : k < n) (hp : p < n) (h : p ≠ k) : rank n (k + 1) p + 1 < n := by
  unfold rank
  split <;> omega

/-- **Bounded bypass.** Of as many inlets served in their turns as there are inlets that take turns, one is `p`, if it
is open and always ready in the meantime. -/
theorem mem_rotated (h : Courteous lo count es) {before during after : List (Entry L)} {p : Nat}
    (heq : es = before ++ during ++ after) (hlo : lo ≤ p) (hopen : openAfter count (before ++ during) p = true)
    (hready : ∀ r, .polled p r ∈ during → r.element?.isSome = true)
    (hmany : count - lo ≤ (rotated during).length) : p ∈ rotated during := by
  by_contra hp
  have hcount := (openAfter_eq_true.1 hopen).1
  cases hserved : rotated during with
  | nil =>
    rw [hserved, List.length_nil] at hmany
    omega
  | cons k ks =>
    obtain ⟨during₀, e, during₁, rfl, -, hk, hks⟩ := List.filterMap_eq_cons_iff.1 hserved
    have hks : rotated during₁ = ks := hks
    rw [hserved, List.mem_cons, not_or] at hp
    have hsplit : es = before ++ during₀ ++ e :: during₁ ++ after := by rw [heq]; simp
    obtain ⟨c, -, -, hlok, hlt⟩ := h.rotated_spec (hsplit.trans (List.append_assoc _ _ _)) hk
    have hturn : turnAfter (before ++ during₀ ++ [e]) = k + 1 := by
      rw [turnAfter_concat, Entry.turned, hk]
      rfl
    have hsome : e.served?.isSome = true := by
      cases e with
      | arrived c k a => cases a <;> first | rfl | cases hk
      | _ => cases hk
    obtain ⟨-, hle⟩ := h.rank_le hsplit hsome hlo (by omega) (by simpa using hopen)
      (fun r hr => hready r (by simp [hr])) (hks ▸ hp.2)
    have hfar : rank (count - lo) (k - lo + 1) (p - lo) + 1 < count - lo :=
      rank_succ_lt_of_ne (by omega) (by omega) (by omega)
    rw [← Nat.sub_add_comm hlok] at hfar
    rw [hturn, hks] at hle
    rw [hserved, List.length_cons] at hmany
    omega

end Courteous

/-! ## Runs -/

/-- Under every choice of the strategy the inlets from `lo` on take turns. -/
def Strategy.RotatesFrom (L : Strategy α β) (lo : Nat) : Prop :=
  ∀ memory state p, (L.choice memory state).advances p = decide (lo ≤ p)

theorem Strategy.rotatesFrom_fair : (Strategy.fair α).RotatesFrom 0 :=
  fun _ _ p => (decide_eq_true (Nat.zero_le p)).symm

theorem Entry.rotated?_of_served? {e : Entry L} (h : e.served? = none) : e.rotated? = none := by
  cases e with
  | arrived c k a => cases a <;> first | rfl | cases h
  | _ => rfl

theorem Entry.drops_of_isReading {e : Entry L} (h : Merge.isReading e) (p : InletId) : e.drops p = false := by
  cases e <;> first | rfl | cases h

namespace Merge

/-- The history tells which inlets are open. -/
theorem openAfter_history {m : Merge L u} (hl : m.Living) (ht : m.Tidy) (hb : m.Balanced) :
    (m.inletIs · (·.isOpen)) = openAfter m.inlets.length m.history := by
  funext p
  rw [Bool.eq_iff_iff, openAfter_eq_true]
  constructor
  · intro ho
    obtain ⟨q, hq, ho⟩ := inletIs_iff.1 ho
    refine ⟨(List.getElem?_eq_some_iff.1 hq).1, fun hmem => ?_⟩
    have hdeals : .dropped p ∈ m.dealings p := List.mem_filter.2 ⟨hmem, decide_eq_true rfl⟩
    have hsource : q.source.isSome = q.isOpen := (hb p q hq).sound.source_isSome
    cases hl p q hq with
    | running hes =>
      obtain ⟨r, hr, -⟩ := hes _ hdeals
      cases hr
    | concluded _ _ _ _ _ _ hterm =>
      rw [ht p q hq] at hterm
      cases hterm
    | gone _ _ _ _ _ hs =>
      rw [hs, ho] at hsource
      cases hsource
  · rintro ⟨hp, hmem⟩
    have hq := List.getElem?_eq_getElem hp
    have hsource : (m.inlets[p]).source.isSome = (m.inlets[p]).isOpen := (hb p _ hq).sound.source_isSome
    rw [inletIs_iff_of_some hq, ← hsource]
    cases hl p _ hq with
    | running _ hs => exact hs
    | concluded _ _ _ _ _ hs => exact hs
    | gone early last heq => exact absurd (List.mem_filter.1 (heq ▸ by simp : .dropped p ∈ m.dealings p)).1 hmem

/-- The history tells where the rotation stands, and is courteous. -/
structure Courtly (lo : Nat) (m : Merge L u) : Prop where
  turn : m.turn = turnAfter m.history
  courteous : Courteous lo m.inlets.length m.history

section
variable {L : Strategy α α} {m m' : Merge L u} {lo : Nat}

theorem Courtly.of_extends (h : m.Courtly lo) (hx : Extends (fun e => e.served? = none) m m') (ht : m'.turn = m.turn)
    (hcount : m'.inlets.length = m.inlets.length) : m'.Courtly lo := by
  obtain ⟨es, hes, hnone⟩ := hx
  refine ⟨?_, ?_⟩
  · rw [ht, h.turn, hes, turnAfter_append_of_none _ fun e he => Entry.rotated?_of_served? (hnone e he)]
  · rw [hcount, hes]
    exact h.courteous.append_of_none hnone

/-- Nothing is kept, so those that come first are asked. -/
theorem Courtly.entitled (h : m.Courtly lo) (hrot : L.RotatesFrom lo) (hi : m.Interleaves) (hempty : m.Empty)
    (ht : m.Tended) (hreg : m.Regular) {choice : Choice} {order : List InletId} {k : InletId} {q : Inlet u} {x : α}
    {reads : List (Entry L)} (hst : m.stage = .attempting choice order) (hk : (m.seek order).1 = some k)
    (hq : (m.seek order).2.inlets[k]? = some q) (hx : q.buffer = some (.element x))
    (hreads : (m.seek order).2.history = m.history ++ reads) :
    Entitled lo m.inlets.length (m.history ++ reads) choice k := by
  have hfit := hreg.coherent.fits
  rw [hst] at hfit
  obtain ⟨-, -, hchoice, horder, -⟩ := hfit
  have hrotates : choice.Rotates lo m.inlets.length := ⟨hchoice ▸ hi.inlets, hchoice ▸ hrot m.memory m.state⟩
  obtain ⟨es, hes, hreading⟩ := extends_seek m order
  obtain rfl := List.append_cancel_left (hreads.symm.trans hes)
  have hlive : ∀ r ∈ order, m.Live r := fun r hr => live_of_mem hreg.balanced choice (horder ▸ hr)
  have hnd : order.Nodup := horder ▸ choice.nodup_readingOrder _ _
  rcases seek_element hlive hnd hk hq hx with ⟨hkept, -⟩ | ⟨pre, post, es₁, es₂, hsplit, hhistory, hasked⟩
  · have hel : m.inletIs k (·.hasElement) = true := List.find?_some (p := (m.inletIs · (·.hasElement))) hkept
    obtain ⟨q', hq', hel⟩ := inletIs_iff.1 hel
    rw [Inlet.hasElement, hempty k q' hq'] at hel
    cases hel
  · refine ⟨hrotates, m.history, reads, pre, post, rfl, hreading, ?_, fun r hr => ?_⟩
    · rw [turnAfter_append_of_none _ fun e he => Entry.rotated?_of_not_isArrival
          (Entry.not_isArrival_of_isReading (hreading e he)),
        openAfter_append_of_none _ _ fun e he => Entry.drops_of_isReading (hreading e he), ← h.turn,
        ← openAfter_history ht.living ht.tidy hreg.balanced, ← hsplit, horder]
    · obtain ⟨again, hmem⟩ := hasked r hr
      rw [hreads, List.append_assoc, List.append_assoc] at hhistory
      rw [List.append_cancel_left hhistory]
      exact ⟨again, List.mem_append_left _ hmem⟩

theorem Tries.courtly (h : Tries m m') (hm : m.Courtly lo) (hrot : L.RotatesFrom lo) (hi : m.Interleaves)
    (hempty : m.Empty) (ht : m.Tended) (hreg : m.Regular) (hcount : m'.inlets.length = m.inlets.length) :
    m'.Courtly lo := by
  cases h with
  | waits choice order =>
    exact hm.of_extends ((extends_seek m order).mono fun e he => Entry.served?_of_not_isArrival
      (Entry.not_isArrival_of_isReading he)) (frame_seek m order).turn hcount
  | accepts choice order k a q hst hk hq ha =>
    obtain ⟨reads, outcome, hs⟩ := serves_of_found hreg.balanced hst hk hq ha
    have hreads : ∀ e ∈ reads, e.served? = none :=
      fun e he => Entry.served?_of_not_isArrival (hs.not_isArrival_reads he)
    have hrest : ∀ e ∈ (m.handling k a (m.transition k a).next).toList ++ outcome, e.served? = none :=
      fun e he => Entry.served?_of_not_isArrival (hs.not_isArrival_rest he)
    cases hterm : a.isTerminal with
    | true =>
      have hquiet : (.arrived choice k a : Entry L).served? = none := by
        cases a <;> first | rfl | cases hterm
      refine hm.of_extends ⟨_, by rw [hs.history, List.append_assoc], fun e he => ?_⟩ (by rw [hs.turn, hterm]; rfl)
        hcount
      rcases List.mem_append.1 he with he | he
      · exact hreads e he
      · rcases List.mem_cons.1 he with rfl | he
        · exact hquiet
        · exact hrest e he
    | false =>
      obtain ⟨x, rfl⟩ := Arrival.isTerminal_eq_false.1 hterm
      obtain ⟨order', q', hst', hk', hq', hx', hseek⟩ := hs.found
      have hentitled := hm.entitled hrot hi hempty ht hreg hst' hk' hq' hx' (hseek rfl)
      have hcons : ∀ rest : List (Entry L), m.history ++ reads ++ .arrived choice k (.element x) :: rest =
          m.history ++ reads ++ [.arrived choice k (.element x)] ++ rest := fun rest => by simp
      refine ⟨?_, ?_⟩
      · rw [hs.turn, hs.history, hcons,
          turnAfter_append_of_none _ fun e he => Entry.rotated?_of_served? (hrest e he), turnAfter_concat,
          turnAfter_append_of_none _ fun e he => Entry.rotated?_of_served? (hreads e he), ← hm.turn]
        unfold Entry.turned Entry.rotated?
        dsimp only
        split <;> simp_all
      · rw [hcount, hs.history, hcons]
        exact ((hm.courteous.append_of_none hreads).append_arrived hentitled x).append_of_none hrest

theorem Change.courtly (h : Change m m') (hm : m.Courtly lo) (hrot : L.RotatesFrom lo) (hi : m.Interleaves)
    (ha : m.Abreast) (ht : m.Tended) (hreg : m.Regular) : m'.Courtly lo := by
  cases h with
  | step hawake =>
    have hcount := (Change.step m hawake).count
    rcases (step_spec m).aside_or_tries with haside | htry
    · exact hm.of_extends (haside.history.mono fun e he => Entry.served?_of_not_isArrival
        (Entry.not_isArrival_of_isSideline he)) haside.turn hcount
    · exact htry.courtly hm hrot hi (ha.empty hreg.balanced ht.tidy) ht hreg hcount
  | abandon hr =>
    refine hm.of_extends ((extends_releaseAll m).mono fun e ⟨k, he⟩ => ?_) (frame_releaseAll m).turn
      (Change.abandon m hr).count
    subst he
    rfl
  | adjust p q s s' hq hs => exact hm.of_extends (.of_eq rfl) rfl (Change.adjust m p q s s' hq hs).count
  | _ => exact hm.of_extends (.of_eq rfl) rfl rfl

/-- Whatever happens to a merge that forwards everything, its history stays courteous. -/
theorem Changes.courtly (h : Changes m m') (hL : Passes L) (hrot : L.RotatesFrom lo) (hi : m.Interleaves)
    (ha : m.Abreast) (ht : m.Tended) (hreg : m.Regular) (hm : m.Courtly lo) : m'.Courtly lo :=
  (h.induction (motive := fun m => m.Regular ∧ m.Tended ∧ m.Interleaves ∧ m.Abreast ∧ m.Courtly lo)
    (fun _ _ hch ⟨hreg, ht, hi, ha, hm⟩ => ⟨hch.regular hreg, hch.tended ht hreg.balanced, hch.interleaves hL hreg hi,
      hch.abreast ha hL hi hreg.balanced hreg.coherent ht.tidy, hch.courtly hm hrot hi ha ht hreg⟩)
    ⟨hreg, ht, hi, ha, hm⟩).2.2.2.2

theorem Fresh.courtly {sources : List u.State} (h : Fresh m sources) : m.Courtly lo := by
  refine ⟨by rw [h.turn, h.history]; rfl, fun before c k x after heq => ?_⟩
  rw [h.history] at heq
  exact absurd (congrArg List.length heq) (by simp)

end
end Merge

namespace Session

section
variable {L : Strategy α α}

theorem play_courteous (hL : L.Forwards) {lo : Nat} (hrot : L.RotatesFrom lo) {settings : Settings}
    {sources : List u.State} {m : Merge L u} (hm : Merge.setUp L u settings sources = .ok m) (moves : List (Move u)) :
    Courteous lo sources.length ((start m).play moves).merge.history := by
  have hfresh := Merge.setUp_fresh hm
  have h := (play_changes moves (start m)).courtly hL.passes hrot (hL.interleaves hm) hfresh.abreast hfresh.tended
    hfresh.regular hfresh.courtly
  rw [← Merge.play_count hm moves]
  exact h.courteous

end

/-- **Bounded bypass of the fair strategy.** For all sources and every order of moves, of as many elements in a row as
there are inlets one is of the inlet `p`, if the source of `p` has not been given up by the end of them, and meanwhile
answers every poll with an element. Whether the other sources are ready, and how long, makes no difference. -/
theorem play_bypass {settings : Settings} {sources : List u.State} {m : Merge (Strategy.fair α) u}
    (hm : Merge.setUp (Strategy.fair α) u settings sources = .ok m) (moves : List (Move u))
    {before during after : List (Entry (Strategy.fair α))}
    (hhistory : ((start m).play moves).merge.history = before ++ during ++ after) {p : InletId}
    (hp : p < sources.length) (hopen : .dropped p ∉ before ++ during)
    (hready : ∀ r, .polled p r ∈ during → r.element?.isSome = true)
    (hmany : sources.length ≤ (served during).length) : p ∈ served during := by
  have hcourteous := play_courteous .fair Strategy.rotatesFrom_fair hm moves
  rw [← hcourteous.rotated_eq_served hhistory] at hmany ⊢
  exact hcourteous.mem_rotated hhistory (Nat.zero_le p) (openAfter_eq_true.2 ⟨hp, hopen⟩) hready hmany

/-- Of three inlets the second has nothing for a while and the third comes to its end; the first one is always ready. -/
theorem play_bypass_scripted : ∃ m,
    Merge.setUp (Strategy.fair Nat) (scripted Nat) .standard
      [.ofItems [.forever 1], .ofItems [.element 2, .pend 1, .element 4], .ofList [3]] = .ok m ∧
    let history := ((start m).play [.request 3, .poll 60, .request 4, .poll 60]).merge.history
    served (history.drop 22) = [1, 0, 0] ∧ 0 ∈ served (history.drop 22) := by
  have hm : Merge.setUp (Strategy.fair Nat) (scripted Nat) .standard
      [.ofItems [.forever 1], .ofItems [.element 2, .pend 1, .element 4], .ofList [3]] = .ok _ := rfl
  refine ⟨_, hm, ?_⟩
  intro history
  have hsplit : history = history.take 22 ++ history.drop 22 ++ [] := by simp
  have hopen : openAfter 3 (history.take 22 ++ history.drop 22) 0 = true := by decide
  have hready : ∀ e ∈ history.drop 22, ∀ r ∈ e.answer? 0, r.element?.isSome = true := by decide
  have hserved : served (history.drop 22) = [1, 0, 0] := by decide
  exact ⟨hserved, play_bypass hm _ hsplit (by decide) (openAfter_eq_true.1 hopen).2 (fun r hr => hready _ hr r rfl)
    (by rw [hserved]; decide)⟩

end Session
end StreamMerge
