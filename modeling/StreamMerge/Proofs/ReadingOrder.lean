import Mathlib.Data.List.Sort
import StreamMerge.Proofs.Bypass

/-!
# The reading order of a choice

`Choice.Orders` says what the reading order of a choice has to be, without saying how it is computed: the open inlets
that the choice names, once each, the preferred one first and the others as their turns come. One list only satisfies
this, so the order in which a choice lists its inlets, and how often it lists them, makes no difference.
-/
namespace StreamMerge

/-! ## Lists in turn -/

theorem inTurn_singleton (turn p : Nat) : InTurn turn [p] := by
  by_cases hp : turn ≤ p
  · exact ⟨[p], [], by simp, by simp, by simp, by simpa using hp, by simp⟩
  · exact ⟨[], [p], by simp, by simp, by simp, by simp, by simpa using hp⟩

theorem InTurn.filter {turn : Nat} {ps : List InletId} (h : InTurn turn ps) (test : InletId → Bool) :
    InTurn turn (ps.filter test) := by
  obtain ⟨late, early, rfl, hlate, hearly, hfrom, hbefore⟩ := h
  refine ⟨late.filter test, early.filter test, by simp, hlate.filter _, hearly.filter _, ?_, ?_⟩
  · intro q hq
    exact hfrom q (List.mem_filter.1 hq).1
  · intro q hq
    exact hbefore q (List.mem_filter.1 hq).1

instance (turn : Nat) : Std.Irrefl (Precedes turn) := ⟨fun _ => not_precedes_self⟩

instance (turn : Nat) : Std.Antisymm (Precedes turn) := ⟨fun _ _ h h' => absurd h' (not_precedes h)⟩

/-- Inlets that stand in turn are determined by their set. -/
theorem InTurn.eq_of_mem_iff {turn : Nat} {ps qs : List InletId} (hp : InTurn turn ps) (hq : InTurn turn qs)
    (h : ∀ r, r ∈ ps ↔ r ∈ qs) : ps = qs :=
  hp.pairwise.eq_of_mem_iff hq.pairwise h

/-! ## The order of a choice -/

namespace Choice

/-- The inlet that comes before all others, if the choice has one. -/
def first? : Choice → Option InletId
  | .preferred p _ => some p
  | _ => none

/-- `order` is an order in which to try the open inlets of the choice `s`, when the rotation stands at `turn`. -/
structure Orders (s : Choice) (turn : Nat) (isOpen : InletId → Bool) (order : List InletId) : Prop where
  /-- The open inlets that the choice names. -/
  exact : ∀ q, q ∈ order ↔ q ∈ s.inlets ∧ isOpen q = true
  /-- None is tried twice. -/
  nodup : order.Nodup
  /-- The preferred inlet comes first if it is open, the others follow in turn. -/
  inTurn : ∃ rest, order = (s.first?.filter isOpen).toList ++ rest ∧ InTurn turn rest

section
variable (s : Choice) (turn : Nat) (isOpen : InletId → Bool)

theorem readingOrder_splits :
    ∃ rest, s.readingOrder turn isOpen = (s.first?.filter isOpen).toList ++ rest ∧ InTurn turn rest := by
  cases s with
  | one p =>
    by_cases hp : isOpen p = true
    · exact ⟨[p], by simp [readingOrder, first?, hp], inTurn_singleton turn p⟩
    · refine ⟨[], by simp [readingOrder, first?, hp], ?_⟩
      exact (inTurn_singleton turn p).filter fun _ => false
  | any ps => exact ⟨_, by simp [readingOrder, first?], inTurn_rotation turn isOpen ps⟩
  | preferred p ps =>
    refine ⟨(rotation turn isOpen ps).filter (· ≠ p), ?_, (inTurn_rotation turn isOpen ps).filter _⟩
    by_cases hp : isOpen p = true
    · simp [readingOrder, first?, Option.filter, hp]
    · simp [readingOrder, first?, Option.filter, hp]

theorem readingOrder_orders : s.Orders turn isOpen (s.readingOrder turn isOpen) where
  exact _ := mem_readingOrder
  nodup := s.nodup_readingOrder turn isOpen
  inTurn := s.readingOrder_splits turn isOpen

end

section
variable {s s' : Choice} {turn : Nat} {isOpen : InletId → Bool} {order order' : List InletId}

/-- Two orders that begin with the same inlet differ in nothing: what follows is the same set, in turn. -/
theorem Orders.unique (h : s.Orders turn isOpen order) (h' : s'.Orders turn isOpen order')
    (hfirst : s'.first? = s.first?) (hset : ∀ q, q ∈ s'.inlets ↔ q ∈ s.inlets) : order' = order := by
  obtain ⟨rest, hrest, hturn⟩ := h.inTurn
  obtain ⟨rest', hrest', hturn'⟩ := h'.inTurn
  have hnodup := h.nodup
  have hnodup' := h'.nodup
  rw [hfirst] at hrest'
  rw [hrest, List.nodup_append] at hnodup
  rw [hrest', List.nodup_append] at hnodup'
  have hmem : ∀ q, q ∈ order' ↔ q ∈ order := by
    intro q
    rw [h.exact, h'.exact, hset]
  have htail : ∀ q, q ∈ rest' ↔ q ∈ rest := by
    intro q
    have hq := hmem q
    rw [hrest, hrest', List.mem_append, List.mem_append] at hq
    constructor
    · intro hin
      rcases hq.1 (Or.inr hin) with hhead | hin'
      · exact absurd rfl (hnodup'.2.2 q hhead q hin)
      · exact hin'
    · intro hin
      rcases hq.2 (Or.inr hin) with hhead | hin'
      · exact absurd rfl (hnodup.2.2 q hhead q hin)
      · exact hin'
  rw [hrest, hrest', hturn'.eq_of_mem_iff hturn htail]

end

/-- **The reading order.** It is the one list of the open inlets that a choice names in which none stands twice, the
preferred inlet stands first if it is open, and the others stand in turn from the cursor on. So it is the same for all
choices that prefer the same inlet, or none, and name the same set of inlets. -/
theorem readingOrder_determined (s : Choice) (turn : Nat) (isOpen : InletId → Bool) :
    (∀ order, s.Orders turn isOpen order ↔ order = s.readingOrder turn isOpen) ∧
    ∀ s' : Choice, s'.first? = s.first? → (∀ q, q ∈ s'.inlets ↔ q ∈ s.inlets) →
      s'.readingOrder turn isOpen = s.readingOrder turn isOpen := by
  have horders := s.readingOrder_orders turn isOpen
  constructor
  · intro order
    constructor
    · intro h
      exact horders.unique h rfl fun _ => Iff.rfl
    · rintro rfl
      exact horders
  · intro s' hfirst hset
    exact horders.unique (s'.readingOrder_orders turn isOpen) hfirst hset

/-- Listing the preferred inlet again, and the others twice and in another order, changes nothing. -/
theorem readingOrder_relisted :
    (preferred 1 [2, 0, 2, 1]).readingOrder 2 (· ≠ 3) = (preferred 1 [0, 2]).readingOrder 2 (· ≠ 3) :=
  (readingOrder_determined (preferred 1 [0, 2]) 2 (· ≠ 3)).2 (preferred 1 [2, 0, 2, 1]) rfl fun q => by
    simp only [inlets, List.mem_cons, List.not_mem_nil]
    tauto

example : (preferred 1 [2, 0, 2, 1]).readingOrder 2 (· ≠ 3) = [1, 2, 0] := by decide

end Choice
end StreamMerge
