import StreamMerge.Proofs.Bypass
import StreamMerge.Proofs.Gathering
import StreamMerge.Proofs.Preference

/-!
# Lists in columns

Written below each other, lists that are always ready are merged column by column. At any point of such a run, what is
still to come is what is left of the lists, column by column from where the rotation stands (`columnsFrom`); whoever is
served is the first in the rotation that has something left (`Courteous.columns`). So the fair strategy delivers the
columns of all lists, and the preferring one the first list and then the columns of the others
(`Session.collect_columns`).
-/
namespace StreamMerge

variable {α β : Type} {L : Strategy α β} {u : Source α}

/-! ## Columns -/

section
variable {lists : List (List α)} {turn k n : Nat} {x : α} {xs : List α}

/-- The first `n` columns of the lists: the first elements of all lists that have one, then the second ones, and so on. -/
def firstColumns (n : Nat) (lists : List (List α)) : List α := (List.range n).flatMap fun i => lists.filterMap (·[i]?)

/-- The length of the longest list. -/
def longest (lists : List (List α)) : Nat := lists.foldr (fun xs n => max xs.length n) 0

/-- All columns of the lists, as many as the longest list has elements. -/
def columnMajor (lists : List (List α)) : List α := firstColumns (longest lists) lists

theorem firstColumns_succ (n : Nat) (lists : List (List α)) :
    firstColumns (n + 1) lists = lists.filterMap List.head? ++ firstColumns n (lists.map List.tail) := by
  simp [firstColumns, List.range_succ_eq_map, List.flatMap_map, List.filterMap_map, List.head?_eq_getElem?]

theorem length_le_longest : ∀ {lists : List (List α)}, xs ∈ lists → xs.length ≤ longest lists
  | ys :: lists, h => by
    rcases List.mem_cons.1 h with rfl | h
    · exact Nat.le_max_left _ _
    · exact Nat.le_trans (length_le_longest h) (Nat.le_max_right _ _)

theorem longest_le : ∀ {lists : List (List α)}, (∀ xs ∈ lists, xs.length ≤ n) → longest lists ≤ n
  | [], _ => Nat.zero_le n
  | xs :: lists, h => by
    have hrest := longest_le fun ys hys => h ys (List.mem_cons_of_mem xs hys)
    exact Nat.max_le.2 ⟨h xs (by simp), hrest⟩

/-- Further columns are empty. -/
theorem firstColumns_eq_columnMajor (h : ∀ xs ∈ lists, xs.length ≤ n) : firstColumns n lists = columnMajor lists := by
  obtain ⟨k, rfl⟩ := Nat.exists_eq_add_of_le (longest_le h)
  have hnone : ∀ i, (lists.filterMap fun xs => xs[longest lists + i]?) = [] := by
    intro i
    refine List.filterMap_eq_nil_iff.2 fun xs hxs => List.getElem?_eq_none ?_
    have := length_le_longest hxs
    omega
  unfold columnMajor firstColumns
  rw [List.range_add, List.flatMap_append, List.flatMap_map]
  simp [hnone]

/-- The first column, and then the columns of what is left. -/
theorem columnMajor_eq (lists : List (List α)) :
    columnMajor lists = lists.filterMap List.head? ++ columnMajor (lists.map List.tail) := by
  have hle : ∀ xs ∈ lists, xs.length ≤ longest lists + 1 := fun xs hxs => Nat.le_succ_of_le (length_le_longest hxs)
  have hle' : ∀ xs ∈ lists.map List.tail, xs.length ≤ longest lists := by
    intro xs hxs
    obtain ⟨ys, hys, rfl⟩ := List.mem_map.1 hxs
    have := hle ys hys
    rw [List.length_tail]
    omega
  rw [← firstColumns_eq_columnMajor hle, firstColumns_succ, firstColumns_eq_columnMajor hle']

example : columnMajor [[1, 4, 6], [2], [3, 5]] = [1, 2, 3, 4, 5, 6] := by decide

theorem columnMajor_eq_nil (h : ∀ xs ∈ lists, xs = []) : columnMajor lists = [] := by
  rw [← firstColumns_eq_columnMajor (n := 0) fun xs hxs => by simp [h xs hxs]]
  rfl

/-- The columns of the lists, of which the first one is left from the list number `turn` on. -/
def columnsFrom (turn : Nat) (lists : List (List α)) : List α :=
  (lists.drop turn).filterMap List.head? ++ columnMajor (lists.take turn ++ (lists.drop turn).map List.tail)

theorem columnsFrom_zero (lists : List (List α)) : columnsFrom 0 lists = columnMajor lists := by
  rw [columnMajor_eq]
  rfl

theorem columnsFrom_append (before after : List (List α)) : columnsFrom before.length (before ++ after) =
    after.filterMap List.head? ++ columnMajor (before ++ after.map List.tail) := by
  rw [columnsFrom, List.drop_left, List.take_left]

theorem filterMap_head?_of_nil (h : ∀ xs ∈ lists, xs = []) : lists.filterMap List.head? = [] :=
  List.filterMap_eq_nil_iff.2 fun xs hxs => by rw [h xs hxs]; rfl

theorem map_tail_of_nil (h : ∀ xs ∈ lists, xs = []) : lists.map List.tail = lists := by
  conv_rhs => rw [← List.map_id lists]
  exact List.map_congr_left fun xs hxs => by rw [h xs hxs]; rfl

/-- When nothing is left in the present column, the next one begins. -/
theorem columnsFrom_of_drop (h : ∀ xs ∈ lists.drop turn, xs = []) : columnsFrom turn lists = columnMajor lists := by
  rw [columnsFrom, filterMap_head?_of_nil h, map_tail_of_nil h, List.nil_append, List.take_append_drop]

theorem columnsFrom_eq_nil (h : ∀ xs ∈ lists, xs = []) : columnsFrom turn lists = [] := by
  rw [columnsFrom_of_drop fun xs hxs => h xs (List.mem_of_mem_drop hxs), columnMajor_eq_nil h]

/-- In a column, what comes next is the head of the next list with something left. -/
theorem columnsFrom_head (before empty after : List (List α)) (x : α) (xs : List α) (h : ∀ xs ∈ empty, xs = []) :
    columnsFrom before.length (before ++ (empty ++ (x :: xs) :: after)) =
      x :: columnsFrom (before.length + empty.length + 1) (before ++ (empty ++ xs :: after)) := by
  have hassoc : before ++ (empty ++ xs :: after) = (before ++ empty ++ [xs]) ++ after := by simp
  have hlength : before.length + empty.length + 1 = (before ++ empty ++ [xs]).length := by
    simp [Nat.add_assoc]
  rw [columnsFrom_append, hassoc, hlength, columnsFrom_append]
  simp [filterMap_head?_of_nil h, map_tail_of_nil h]

/-- Whoever is the first in the rotation to have something left comes next. -/
theorem columnsFrom_set (hk : lists[k]? = some (x :: xs))
    (hfirst : ∀ i ys, lists[i]? = some ys → Precedes turn i k → ys = []) :
    columnsFrom turn lists = x :: columnsFrom (k + 1) (lists.set k xs) := by
  obtain ⟨hlt, hget⟩ := List.getElem?_eq_some_iff.1 hk
  obtain ⟨pre, after, hlists, hpre, hset⟩ : ∃ pre after, lists = pre ++ lists[k] :: after ∧ pre.length = k ∧
      lists.set k xs = pre ++ xs :: after := List.exists_of_set hlt
  rw [hget] at hlists
  -- The lists before the one that is served are empty as far as they are still in the present column.
  have hserve : ∀ start, start ≤ k → (∀ i ys, lists[i]? = some ys → start ≤ i → i < k → ys = []) →
      columnsFrom start lists = x :: columnsFrom (k + 1) (lists.set k xs) := by
    intro start hstart hempty
    have hnil : ∀ ys ∈ pre.drop start, ys = [] := by
      intro ys hys
      obtain ⟨i, hi⟩ := List.mem_iff_getElem?.1 hys
      rw [List.getElem?_drop] at hi
      have hlt' := (List.getElem?_eq_some_iff.1 hi).1
      refine hempty (start + i) ys ?_ (Nat.le_add_right _ _) (hpre ▸ hlt')
      rw [hlists, List.getElem?_append_left hlt', hi]
    have hlength : (pre.take start).length = start := by
      rw [List.length_take, hpre, Nat.min_eq_left hstart]
    have hhead := columnsFrom_head (pre.take start) (pre.drop start) after x xs hnil
    rw [← List.append_assoc, ← List.append_assoc, List.take_append_drop, hlength, List.length_drop, hpre,
      Nat.add_sub_cancel' hstart] at hhead
    rw [hset, ← hhead, ← hlists]
  by_cases hturn : turn ≤ k
  · exact hserve turn hturn fun i ys hi hle hik => hfirst i ys hi (Or.inl ⟨hle, Or.inr hik⟩)
  · have hdrop : ∀ ys ∈ lists.drop turn, ys = [] := by
      intro ys hys
      obtain ⟨i, hi⟩ := List.mem_iff_getElem?.1 hys
      rw [List.getElem?_drop] at hi
      exact hfirst (turn + i) ys hi (Or.inl ⟨Nat.le_add_right _ _, Or.inl (Nat.not_le.1 hturn)⟩)
    rw [columnsFrom_of_drop hdrop, ← columnsFrom_zero]
    refine hserve 0 (Nat.zero_le k) fun i ys hi _ hik => hfirst i ys hi (Or.inr ?_)
    omega

end

/-! ## What is still to come -/

namespace Choice

/-- Who is preferred goes before those that take turns. -/
theorem advances_of_readingOrder {c : Choice} {turn : Nat} {isOpen : InletId → Bool} {k p : InletId}
    {post : List InletId} (h : c.readingOrder turn isOpen = k :: post) (hk : c.advances k = true) (hp : p ∈ post) :
    c.advances p = true := by
  cases c with
  | one q => cases hk
  | any ps => rfl
  | preferred q ps =>
    have hreading : (preferred q ps).readingOrder turn isOpen =
        (if isOpen q then [q] else []) ++ (rotation turn isOpen ps).filter (· ≠ q) := rfl
    rw [hreading] at h
    split at h
    · obtain rfl := (List.cons.inj h).1
      simp [advances] at hk
    · have hmem : p ∈ (rotation turn isOpen ps).filter (· ≠ q) := by
        rw [← List.nil_append (List.filter _ _), h]
        exact List.mem_cons_of_mem k hp
      exact (List.mem_filter.1 hmem).2

end Choice

/-- The element that is taken up, with its inlet. -/
def Entry.taken? : Entry L → Option (InletId × α)
  | .arrived _ p (.element x) => some (p, x)
  | _ => none

/-- The elements of `p` that are taken up, in order. -/
def queue (es : List (Entry L)) (p : InletId) : List α :=
  ((es.filterMap Entry.taken?).filter fun t => t.1 = p).map Prod.snd

/-- The elements of the first `count` inlets that are taken up. -/
def queues (count : Nat) (es : List (Entry L)) : List (List α) := (List.range count).map (queue es)

theorem Entry.eq_of_taken? {e : Entry L} {p : InletId} {x : α} (h : e.taken? = some (p, x)) :
    ∃ c, e = .arrived c p (.element x) := by
  cases e with
  | arrived c q a =>
    cases a with
    | element y =>
      obtain ⟨rfl, rfl⟩ := Prod.mk.inj (Option.some.inj h)
      exact ⟨c, rfl⟩
    | _ => cases h
  | _ => cases h

theorem Entry.rotated?_of_not_taken {e : Entry L} (h : e.taken? = none) : e.rotated? = none := by
  cases e with
  | arrived c q a => cases a <;> first | rfl | cases h
  | _ => rfl

section
variable {lo count k p : Nat} {es before after : List (Entry L)} {c : Choice} {x : α}

theorem queue_cons_of_none {e : Entry L} (h : e.taken? = none) (p : InletId) : queue (e :: after) p = queue after p := by
  rw [queue, List.filterMap_cons_none h, queue]

theorem queue_cons_self : queue (.arrived c k (.element x) :: after) k = x :: queue after k := by
  simp [queue, Entry.taken?]

theorem queue_cons_of_ne (h : p ≠ k) : queue (.arrived c k (.element x) :: after) p = queue after p := by
  simp [queue, Entry.taken?, Ne.symm h]

theorem getElem?_queues (es : List (Entry L)) (hp : p < count) : (queues count es)[p]? = some (queue es p) := by
  simp [queues, hp]

/-- Where an element is taken up, one queue gets shorter. -/
theorem queues_cons (c : Choice) (x : α) (after : List (Entry L)) (hk : k < count) :
    (queues count (.arrived c k (.element x) :: after)).set k (queue after k) = queues count after := by
  refine List.ext_getElem? fun p => ?_
  rw [List.getElem?_set]
  by_cases hp : k = p
  · subst hp
    simp [queues, hk]
  · rw [if_neg hp]
    by_cases hlt : p < count
    · rw [getElem?_queues _ hlt, getElem?_queues _ hlt, queue_cons_of_ne (Ne.symm hp)]
    · simp [queues, hlt]

/-- The element is taken off the front, if the first inlet is served. -/
theorem queues_cons_first (c : Choice) (x : α) (after : List (Entry L)) (hcount : 0 < count) :
    ((queues count (.arrived c 0 (.element x) :: after)).take 1).flatten =
      x :: ((queues count after).take 1).flatten ∧
    (queues count (.arrived c 0 (.element x) :: after)).drop 1 = (queues count after).drop 1 := by
  have hhead := getElem?_queues (.arrived c 0 (.element x) :: after) hcount
  rw [queue_cons_self] at hhead
  rw [← queues_cons c x after hcount]
  rcases hqueues : queues count (.arrived c 0 (.element x) :: after) with _ | ⟨q, qs⟩
  · rw [hqueues] at hhead
    cases hhead
  · rw [hqueues] at hhead
    obtain rfl := Option.some.inj hhead
    simp

namespace Courteous

/-- A source that has been given up has nothing more to be taken up. -/
theorem queue_eq_nil (h : Courteous lo count es) (heq : es = before ++ after)
    (hclosed : openAfter count before p = false) : queue after p = [] := by
  refine List.map_eq_nil_iff.2 (List.filter_eq_nil_iff.2 fun t ht => ?_)
  obtain ⟨k, y⟩ := t
  obtain ⟨e, he, htaken⟩ := List.mem_filterMap.1 ht
  obtain ⟨c, rfl⟩ := Entry.eq_of_taken? htaken
  obtain ⟨pre, post, rfl⟩ := List.append_of_mem he
  obtain ⟨_, _, pre', post', -, -, horder, -⟩ := (h (before ++ pre) c k y post (by rw [heq]; simp)).asked
  have hmem : k ∈ c.readingOrder (turnAfter (before ++ pre)) (openAfter count (before ++ pre)) := horder ▸ by simp
  have hopen := openAfter_eq_true.1 (Choice.mem_readingOrder.1 hmem).2
  simp only [decide_eq_true_eq]
  rintro rfl
  rw [openAfter_eq_true.2 ⟨hopen.1, fun hdropped => hopen.2 (List.mem_append_left pre hdropped)⟩] at hclosed
  cases hclosed

/-- Where every answer is there, whoever is served is the first in the order. -/
theorem first (h : Courteous lo count es) (hplain : ∀ e ∈ es, e.isPlain)
    (heq : es = before ++ .arrived c k (.element x) :: after) : c.Rotates lo count ∧ k < count ∧
    ∃ post, c.readingOrder (turnAfter before) (openAfter count before) = k :: post := by
  have he := h before c k x after heq
  obtain ⟨before', reads, pre, post, rfl, -, horder, hasked⟩ := he.asked
  have hmem : k ∈ c.readingOrder (turnAfter (before' ++ reads)) (openAfter count (before' ++ reads)) := horder ▸ by simp
  refine ⟨he.rotates, (openAfter_eq_true.1 (Choice.mem_readingOrder.1 hmem).2).1, post, ?_⟩
  rw [horder]
  cases pre with
  | nil => rfl
  | cons p pre =>
    obtain ⟨again, hpolled⟩ := hasked p (by simp)
    exact (hplain (.polled p (.pending again)) (by rw [heq]; simp [hpolled])).elim

/-- An inlet that takes turns is served: those that go first have nothing left, and it is the first in the rotation that
has something left. -/
theorem columns_of_turn (h : Courteous lo count es) (hplain : ∀ e ∈ es, e.isPlain)
    (heq : es = before ++ .arrived c k (.element x) :: after) (hk : lo ≤ k) :
    ((queues count (.arrived c k (.element x) :: after)).take lo).flatten = [] ∧
    ((queues count after).take lo).flatten = [] ∧
    columnsFrom (turnAfter before - lo) ((queues count (.arrived c k (.element x) :: after)).drop lo) =
      x :: columnsFrom (k + 1 - lo) ((queues count after).drop lo) := by
  obtain ⟨hrotates, hlt, post, horder⟩ := h.first hplain heq
  have hadvances : c.advances k = true := by rw [hrotates.advances, decide_eq_true hk]
  -- Whoever stands behind `k` takes turns, too, and comes after `k`; all others have come to their end.
  have hclosed : ∀ p, p ≠ k → (lo ≤ p → ¬ Precedes (turnAfter before) k p) →
      queue (.arrived c k (.element x) :: after) p = [] := by
    intro p hpk hlater
    refine h.queue_eq_nil heq (eq_false_of_ne_true fun hopen => ?_)
    have hmem : p ∈ k :: post := horder ▸ Choice.mem_readingOrder.2
      ⟨by rw [hrotates.inlets]; exact List.mem_range.2 (openAfter_eq_true.1 hopen).1, hopen⟩
    have hpost := (List.mem_cons.1 hmem).resolve_left hpk
    have hp := Choice.advances_of_readingOrder horder hadvances hpost
    have hlo : lo ≤ p := of_decide_eq_true ((hrotates.advances p).symm.trans hp)
    have hnil : c.readingOrder (turnAfter before) (openAfter count before) = [] ++ k :: post := horder
    exact hlater hlo (Choice.precedes_of_readingOrder hnil hadvances hp hpost)
  have hfront : ∀ xs ∈ (queues count (.arrived c k (.element x) :: after)).take lo, xs = [] := by
    intro xs hxs
    obtain ⟨p, hp⟩ := List.mem_iff_getElem?.1 hxs
    rw [List.getElem?_take] at hp
    split at hp
    · rename_i hplo
      rw [getElem?_queues _ (by omega)] at hp
      obtain rfl := Option.some.inj hp
      exact hclosed p (by omega) fun hle => by omega
    · cases hp
  have hset := queues_cons c x after hlt
  refine ⟨List.flatten_eq_nil_iff.2 hfront, ?_, ?_⟩
  · rw [← hset, List.take_set_of_le hk]
    exact List.flatten_eq_nil_iff.2 hfront
  · rw [← hset, List.drop_set, if_neg (Nat.not_lt.2 hk), Nat.sub_add_comm hk]
    refine columnsFrom_set ?_ fun i ys hi hprec => ?_
    · rw [List.getElem?_drop, Nat.add_sub_cancel' hk, getElem?_queues _ hlt, queue_cons_self]
    · rw [List.getElem?_drop] at hi
      by_cases hcount : lo + i < count
      · rw [getElem?_queues _ hcount] at hi
        obtain rfl := Option.some.inj hi
        refine hclosed (lo + i) (fun hsame => ?_) fun _ hlater => ?_
        · unfold Precedes at hprec
          omega
        · unfold Precedes at hprec hlater
          omega
      · simp [queues, hcount] at hi

/-- **What is still to come** is what is left of the inlets that go first, and then what is left of the others, column
by column from where the rotation stands. -/
theorem columns (h : Courteous lo count es) (hlo : lo ≤ 1) (hplain : ∀ e ∈ es, e.isPlain) :
    ∀ {before after : List (Entry L)}, es = before ++ after → (after.filterMap Entry.taken?).map Prod.snd =
      ((queues count after).take lo).flatten ++ columnsFrom (turnAfter before - lo) ((queues count after).drop lo) := by
  intro before after heq
  induction after generalizing before with
  | nil =>
    have hnil : ∀ xs ∈ queues (L := L) (α := α) count [], xs = [] := by
      intro xs hxs
      obtain ⟨p, -, rfl⟩ := List.mem_map.1 hxs
      rfl
    rw [columnsFrom_eq_nil fun xs hxs => hnil xs (List.mem_of_mem_drop hxs), List.append_nil]
    exact (List.flatten_eq_nil_iff.2 fun xs hxs => hnil xs (List.mem_of_mem_take hxs)).symm
  | cons e after ih =>
    have hrest := @ih (before ++ [e]) (by rw [heq, List.append_assoc]; rfl)
    rw [turnAfter_concat] at hrest
    rcases htaken : e.taken? with _ | ⟨k, x⟩
    · have hsame : queues count (e :: after) = queues count after :=
        List.map_congr_left fun p _ => queue_cons_of_none htaken p
      have hstay : e.turned (turnAfter before) = turnAfter before := by
        rw [Entry.turned, Entry.rotated?_of_not_taken htaken]
        rfl
      rw [List.filterMap_cons_none htaken, hsame, hrest, hstay]
    · obtain ⟨c, rfl⟩ := Entry.eq_of_taken? htaken
      obtain ⟨hrotates, hcount, -⟩ := h.first hplain heq
      rw [List.filterMap_cons_some htaken, List.map_cons, hrest]
      by_cases hk : lo ≤ k
      · obtain ⟨hfront, hfront', hnext⟩ := h.columns_of_turn hplain heq hk
        have hturned : (.arrived c k (.element x) : Entry L).turned (turnAfter before) = k + 1 := by
          simp [Entry.turned, Entry.rotated?, hrotates.advances, hk]
        rw [hfront, hfront', hnext, hturned]
        rfl
      · -- The first inlet is served outside the rotation.
        have hlt : k < lo := Nat.not_le.1 hk
        obtain rfl : k = 0 := Nat.lt_one_iff.1 (Nat.lt_of_lt_of_le hlt hlo)
        obtain rfl : lo = 1 := Nat.le_antisymm hlo hlt
        have hturned : (.arrived c 0 (.element x) : Entry L).turned (turnAfter before) = turnAfter before := by
          simp [Entry.turned, Entry.rotated?, hrotates.advances]
        obtain ⟨hfront, hback⟩ := queues_cons_first c x after hcount
        rw [hturned, hfront, hback, List.cons_append]

end Courteous
end

/-! ## What is taken up -/

theorem Entry.taken?_of_not_isArrival {e : Entry L} (h : ¬ e.isArrival) : e.taken? = none := by
  cases e <;> first | rfl | exact absurd trivial h

namespace Merge

section
variable {m m' : Merge L u}

/-- The elements that were taken up, in order and each with its inlet. -/
def taken (m : Merge L u) : List (InletId × α) := m.history.filterMap Entry.taken?

theorem taken_of_history {es : List (Entry L)} (h : m'.history = m.history ++ es) :
    m'.taken = m.taken ++ es.filterMap Entry.taken? := by
  rw [taken, h, List.filterMap_append]
  rfl

/-- What is taken up is handed over. -/
theorem Serves.taken {choice : Choice} {p : InletId} {a : Arrival α} {reads outcome : List (Entry L)}
    (h : Serves m choice p a reads outcome m') (hm : m.taken = m.passed) : m'.taken = m'.passed := by
  have hreads : reads.filterMap Entry.taken? = [] :=
    List.filterMap_eq_nil_iff.2 fun e he => Entry.taken?_of_not_isArrival (h.not_isArrival_reads he)
  have hrest : ((m.handling p a (m.transition p a).next).toList ++ outcome).filterMap Entry.taken? = [] :=
    List.filterMap_eq_nil_iff.2 fun e he => Entry.taken?_of_not_isArrival (h.not_isArrival_rest he)
  have hreads' : reads.filterMap Entry.passed? = [] := by
    refine List.filterMap_eq_nil_iff.2 fun e he => ?_
    rcases h.isRead e he with hread | rfl
    · exact Entry.passed?_of_isReading hread
    · rfl
  have hout : outcome.filterMap Entry.passed? = [] :=
    List.filterMap_eq_nil_iff.2 fun e he => Entry.passed?_of_isStill (Entry.isStill_of_isOutcome (h.isOutcome e he))
  have hhistory := h.history
  rw [List.append_assoc] at hhistory
  rw [taken_of_history hhistory, passed_of_history hhistory, hm, List.filterMap_append, hreads, List.filterMap_append,
    hreads', List.filterMap_cons_none (f := Entry.passed?) rfl, List.filterMap_append, passed?_handling, hout,
    List.filterMap_cons, hrest]
  cases a <;> rfl

theorem Change.taken (h : Change m m') (hb : m.Balanced) (hm : m.taken = m.passed) : m'.taken = m'.passed := by
  have hquiet : ∀ {m'}, Extends (fun e => ¬ e.isArrival ∧ e.passed? = none) m m' → m'.taken = m'.passed := by
    intro m' hx
    have htaken : m'.taken = m.taken := hx.filterMap_eq fun _ he => Entry.taken?_of_not_isArrival he.1
    have hpassed : m'.passed = m.passed := hx.filterMap_eq fun _ he => he.2
    rw [htaken, hpassed, hm]
  cases h with
  | step =>
    rcases (step_spec m).aside_or_tries with ha | htry
    · exact hquiet (ha.history.mono fun e he =>
        ⟨Entry.not_isArrival_of_isSideline he, Entry.passed?_of_isStill (Entry.isStill_of_isSideline he)⟩)
    · rcases htry.serves hb with hread | ⟨choice, p, a, reads, outcome, hs⟩
      · exact hquiet (hread.mono fun e he =>
          ⟨Entry.not_isArrival_of_isReading he, Entry.passed?_of_isReading he⟩)
      · exact hs.taken hm
  | abandon =>
    refine hquiet ((extends_releaseAll m).mono fun e ⟨p, he⟩ => ?_)
    rw [he]
    exact ⟨id, rfl⟩
  | _ => exact hquiet (.of_eq rfl)

theorem play_taken {settings : Settings} {sources : List u.State} (hm : setUp L u settings sources = .ok m)
    (moves : List (Move u)) :
    ((Session.start m).play moves).merge.taken = ((Session.start m).play moves).merge.passed :=
  play_invariant (motive := fun m => m.taken = m.passed) hm (by rw [taken, passed, (setUp_fresh hm).history]; rfl)
    (fun h hb _ ht => h.taken hb ht) moves

end
end Merge

/-! ## Lists that are merged -/

section
variable {L : Strategy α α} {w : u.Forecast} {answers? : u.State → Option Nat} {lo batch : Nat} {settings : Settings}
  {sources : List u.State} {inputs : List (List α)} {m : Merge L u}

namespace Session

/-- **A completed run whose sources always had an answer has sent the columns of the lists that they are**, but for
the first list if its inlet goes before the others. -/
theorem play_columns (hL : L.Forwards) (hrot : L.RotatesFrom lo) (hlo : lo ≤ 1)
    (hm : Merge.setUp L u settings sources = .ok m) (ha : List.Forall₂ w.ahead sources inputs) {moves : List (Move u)}
    (hspared : ∀ mv ∈ moves, w.Spares mv) (hplain : ∀ e ∈ ((start m).play moves).merge.history, e.isPlain)
    (hv : ((start m).play moves).merge.verdict? = some (.ok .completed)) :
    ((start m).play moves).merge.sent = (inputs.take lo).flatten ++ columnMajor (inputs.drop lo) := by
  have hi := hL.interleaves hm
  have hstaged : ((start m).play moves).Staged w inputs := .play hm ha hspared
  have hcourteous := play_courteous hL hrot hm moves
  have htaken := Merge.play_taken hm moves
  have habreast := Merge.play_abreast hL.passes hm hi moves
  obtain ⟨last, hlast⟩ := Merge.play_seenThrough_of_interleaves hL.passes hm hi moves hv
  -- Each source was read to its end, so each queue is the whole list.
  have hqueues : queues sources.length ((start m).play moves).merge.history = inputs := by
    refine List.ext_getElem? fun p => ?_
    by_cases hp : p < sources.length
    · obtain ⟨xs, hxs⟩ : ∃ xs, inputs[p]? = some xs := ⟨_, List.getElem?_eq_getElem (ha.length_eq ▸ hp)⟩
      have hyielded := hstaged.yielded_of_seenThrough hlast (Merge.play_count hm moves) hxs
      rw [← Merge.yielded_eq_pulled, habreast.pulled, ← htaken] at hyielded
      rw [getElem?_queues _ hp, hxs]
      exact congrArg some hyielded
    · have hnone : inputs[p]? = none := List.getElem?_eq_none (ha.length_eq ▸ Nat.not_lt.1 hp)
      rw [hnone]
      simp [queues, Nat.not_lt.1 hp]
  have hcolumns := hcourteous.columns hlo hplain (List.nil_append _).symm
  rw [hqueues] at hcolumns
  have hsent : ((start m).play moves).merge.sent = ((start m).play moves).merge.taken.map Prod.snd := by
    rw [(Merge.play_forthright hm moves).completed (Merge.play_coherent hm moves) hv, habreast.emissions, htaken]
  have hzero : turnAfter ([] : List (Entry L)) - lo = 0 := Nat.zero_sub lo
  rw [hsent, ← columnsFrom_zero, ← hzero]
  exact hcolumns

/-- Collecting lists under a strategy that forwards them comes to their columns. -/
theorem collect_columns (hL : L.Forwards) (hrot : L.RotatesFrom lo) (hlo : lo ≤ 1) (hw : w.Instant answers?)
    (hm : Merge.setUp L u settings sources = .ok m) (ha : List.Forall₂ w.ahead sources inputs)
    (hbatch : batch ≤ Credit.limit) :
    ∃ s, (start m).collect (Session.fuel answers?) (Session.fuel answers? (start m)) batch =
      (.ended (.ok ((inputs.take lo).flatten ++ columnMajor (inputs.drop lo))), .ended (.ok .completed), s) := by
  obtain ⟨s, hs⟩ := collect_instant hw hm ha hbatch
  obtain ⟨moves, hspared, rfl⟩ := hs.leads.spared (w := w)
  have hup := (Merge.interleaves_upholds hL.passes).play hm (hL.interleaves hm) moves trivial
  obtain ⟨hverdict, hresult⟩ := hs.completed hup
  rw [play_columns hL hrot hlo hm ha hspared hs.onCourse.plain hverdict] at hresult
  exact ⟨_, hresult⟩

end Session
end

namespace Session

/-- Lists can be merged under the strategy `L`; who collects them in batches gets `ys`, and the run is completed. -/
def MergesTo (L : Strategy α β) (settings : Settings) (batch : Nat) (inputs : List (List α)) (ys : List β) : Prop :=
  ∃ m s, Merge.setUp L (scripted α) settings (inputs.map Script.ofList) = .ok m ∧
    (start m).collect (Session.fuel Script.remaining?) (Session.fuel Script.remaining? (start m)) batch =
      (.ended (.ok ys), .ended (.ok .completed), s)

/-- **The order of lists that are merged.** In batches of any size, the fair strategy brings their columns, and the
preferring one the first list and then the columns of the others. -/
theorem merges_in_columns (settings : Settings) {batch : Nat} (hbatch : batch ≤ Credit.limit)
    (inputs : List (List α)) :
    (1 ≤ inputs.length → MergesTo (Strategy.fair α) settings batch inputs (columnMajor inputs)) ∧
    (∀ first rest, inputs = first :: rest → 1 ≤ rest.length →
      MergesTo (Strategy.preferred α) settings batch inputs (first ++ columnMajor rest)) := by
  have hlength : (inputs.map Script.ofList).length = inputs.length := List.length_map _
  constructor
  · intro hone
    have hhandles : ((Strategy.fair α).handles (Strategy.fair α).fresh (inputs.map Script.ofList).length).1 =
        .ok (List.range (inputs.map Script.ofList).length) := by
      simp [sequentialHandles, Arity.admits, hlength, hone]
    obtain ⟨m, hm⟩ : ∃ m, Merge.setUp (Strategy.fair α) (scripted α) settings (inputs.map Script.ofList) = .ok m :=
      Merge.exists_setUp hhandles
    obtain ⟨s, hs⟩ := collect_columns .fair Strategy.rotatesFrom_fair (Nat.zero_le 1) Script.instant_lists hm
      (Script.ahead_lists inputs) hbatch
    exact ⟨m, s, hm, hs⟩
  · rintro first rest rfl hone
    have hhandles : ((Strategy.preferred α).handles (Strategy.preferred α).fresh
        ((first :: rest).map Script.ofList).length).1 =
        .ok (List.range ((first :: rest).map Script.ofList).length) := by
      simp [sequentialHandles, Arity.admits, hone]
    obtain ⟨m, hm⟩ : ∃ m, Merge.setUp (Strategy.preferred α) (scripted α) settings
        ((first :: rest).map Script.ofList) = .ok m := Merge.exists_setUp hhandles
    obtain ⟨s, hs⟩ := collect_columns .preferred Strategy.rotatesFrom_preferred (Nat.le_refl 1) Script.instant_lists hm
      (Script.ahead_lists (first :: rest)) hbatch
    refine ⟨m, s, hm, hs.trans ?_⟩
    simp

/-- Three lists of different lengths, in batches of two. -/
theorem merges_in_columns_three : 2 ≤ Credit.limit ∧ 1 ≤ [[1, 4, 6], [2], [3, 5]].length ∧
    MergesTo (Strategy.fair Nat) .standard 2 [[1, 4, 6], [2], [3, 5]] [1, 2, 3, 4, 5, 6] ∧
    MergesTo (Strategy.preferred Nat) .standard 2 [[1, 4, 6], [2], [3, 5]] [1, 4, 6, 2, 3, 5] := by
  have hbatch : 2 ≤ Credit.limit := by decide
  obtain ⟨hfair, hpreferred⟩ := merges_in_columns (α := Nat) .standard hbatch [[1, 4, 6], [2], [3, 5]]
  exact ⟨hbatch, by decide, hfair (by decide), hpreferred [1, 4, 6] [[2], [3, 5]] rfl (by decide)⟩

end Session
end StreamMerge
