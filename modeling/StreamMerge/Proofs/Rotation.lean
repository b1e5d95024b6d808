import StreamMerge.Proofs.Lossless

/-!
# The rotating preference

Under a choice of any of some inlets, the inlets take turns: whoever is served goes to the end. `Precedes` is
the order in which their turns come and `rank` the place of an inlet in it. An inlet that is always ready can
miss its turn in one way only: an element that was read ahead is handed over before it. The counting of such
`overtakings` along a history, and how far an inlet can be put off by them, are the subject of this module.
-/
namespace StreamMerge

variable {α β : Type} {L : Strategy α β} {u : Source α}

/-! ## The order of turns -/

/-- In the rotation from `turn` on, `k` comes before `p`. -/
def Precedes (turn k p : Nat) : Prop :=
  (turn ≤ k ∧ (p < turn ∨ k < p)) ∨ (k < turn ∧ p < turn ∧ k < p)

instance (turn k p : Nat) : Decidable (Precedes turn k p) := inferInstanceAs (Decidable (_ ∨ _))

/-- The place of `p` in the rotation of `count` inlets from `turn` on. -/
def rank (count turn p : Nat) : Nat := if turn ≤ p then p - turn else p + count - turn

section
variable {count turn k p : Nat}

theorem precedes_total (turn : Nat) (h : k ≠ p) : Precedes turn k p ∨ Precedes turn p k := by
  unfold Precedes
  omega

theorem not_precedes (h : Precedes turn k p) : ¬ Precedes turn p k := by
  unfold Precedes at *
  omega

theorem not_precedes_self : ¬ Precedes turn p p := by
  unfold Precedes
  omega

theorem rank_lt (turn : Nat) (hp : p < count) : rank count turn p < count := by
  unfold rank
  split <;> omega

/-- When another inlet has its turn, `p` moves up. -/
theorem rank_succ_lt (hk : k < count) (ht : turn ≤ count) (h : Precedes turn k p) :
    rank count (k + 1) p < rank count turn p := by
  unfold Precedes at h
  unfold rank
  split <;> split <;> omega

end

/-- The inlets stand as their turns come: those from `turn` on in ascending order, then those before `turn` in ascending
order. -/
def InTurn (turn : Nat) (ps : List InletId) : Prop :=
  ∃ late early, ps = late ++ early ∧ late.Pairwise (· < ·) ∧ early.Pairwise (· < ·) ∧
    (∀ q ∈ late, turn ≤ q) ∧ ∀ q ∈ early, q < turn

theorem InTurn.pairwise {turn : Nat} {ps : List InletId} (h : InTurn turn ps) : ps.Pairwise (Precedes turn) := by
  obtain ⟨late, early, rfl, hlate, hearly, hfrom, hbefore⟩ := h
  refine List.pairwise_append.2 ⟨?_, ?_, ?_⟩
  · refine hlate.imp_of_mem fun {q r} hq _ hlt => ?_
    exact Or.inl ⟨hfrom q hq, Or.inr hlt⟩
  · refine hearly.imp_of_mem fun {q r} hq hr hlt => ?_
    exact Or.inr ⟨hbefore q hq, hbefore r hr, hlt⟩
  · intro q hq r hr
    exact Or.inl ⟨hfrom q hq, Or.inl (hbefore r hr)⟩

namespace Choice

theorem pairwise_insertOnce (p : InletId) : ∀ {ps : List InletId}, ps.Pairwise (· < ·) →
    (insertOnce p ps).Pairwise (· < ·)
  | [], _ => by simp [insertOnce]
  | q :: qs, h => by
    unfold insertOnce
    have hq := List.pairwise_cons.1 h
    split
    · rename_i hpq
      refine List.pairwise_cons.2 ⟨fun r hr => ?_, h⟩
      rcases List.mem_cons.1 hr with rfl | hr
      · exact hpq
      · exact Nat.lt_trans hpq (hq.1 r hr)
    · split
      · exact h
      · rename_i hpq hne
        refine List.pairwise_cons.2 ⟨fun r hr => ?_, pairwise_insertOnce p hq.2⟩
        rcases mem_insertOnce.1 hr with rfl | hr
        · exact Nat.lt_of_le_of_ne (Nat.le_of_not_lt hpq) (Ne.symm hne)
        · exact hq.1 r hr

theorem pairwise_ascending (ps : List InletId) : (ascending ps).Pairwise (· < ·) := by
  unfold ascending
  induction ps with
  | nil => exact List.Pairwise.nil
  | cons p ps ih => exact pairwise_insertOnce p ih

theorem inTurn_rotation (turn : Nat) (isOpen : InletId → Bool) (ps : List InletId) :
    InTurn turn (rotation turn isOpen ps) := by
  have hsorted := pairwise_ascending (ps.filter isOpen)
  refine ⟨_, _, rfl, hsorted.filter _, hsorted.filter _, ?_, ?_⟩
  · intro q hq
    simpa using (List.mem_filter.1 hq).2
  · intro q hq
    simpa using (List.mem_filter.1 hq).2

/-- The inlets of a rotation stand in the order of their turns. -/
theorem pairwise_rotation (turn : Nat) (isOpen : InletId → Bool) (ps : List InletId) :
    (rotation turn isOpen ps).Pairwise (Precedes turn) :=
  (inTurn_rotation turn isOpen ps).pairwise

theorem nodup_rotation (turn : Nat) (isOpen : InletId → Bool) (ps : List InletId) :
    (rotation turn isOpen ps).Nodup := by
  refine (pairwise_rotation turn isOpen ps).imp fun {k r} h => ?_
  rintro rfl
  exact not_precedes_self h

end Choice

/-! ## Laps and overtaking -/

/-- The inlet whose element is handed over. -/
def Entry.served? : Entry L → Option InletId
  | .arrived _ k (.element _) => some k
  | _ => none

theorem Entry.served?_of_not_isArrival {e : Entry L} (h : ¬ e.isArrival) : e.served? = none := by
  cases e <;> first | rfl | exact absurd trivial h

/-- The inlets whose elements are handed over, in order. -/
def served (es : List (Entry L)) : List InletId := es.filterMap Entry.served?

theorem served_append (es es' : List (Entry L)) : served (es ++ es') = served es ++ served es' :=
  List.filterMap_append

/-- What is remembered along a history: where the rotation stands, and the inlet whose element was polled just
before. -/
structure Trail where
  turn : Nat
  fresh : Option InletId
  deriving DecidableEq

namespace Trail

/-- The trail after an entry. -/
def next (t : Trail) : Entry L → Trail
  | .polled k (.element _) => ⟨t.turn, some k⟩
  | .arrived _ k (.element _) => ⟨k + 1, none⟩
  | _ => ⟨t.turn, none⟩

/-- The rotation comes past `p`: whoever is served, the turn of `p` is over. -/
def passes (t : Trail) (p : InletId) : Entry L → Bool
  | .arrived _ k (.element _) => decide (¬ Precedes t.turn k p)
  | _ => false

/-- An element that was read ahead is handed over though `p` comes first. -/
def overtakes (t : Trail) (p : InletId) : Entry L → Bool
  | .arrived _ k (.element _) => t.fresh ≠ some k && decide (Precedes t.turn p k)
  | _ => false

/-- How many entries pass a test that looks at the trail. -/
def tally (test : Trail → Entry L → Bool) : Trail → List (Entry L) → Nat
  | _, [] => 0
  | t, e :: es => (test t e).toNat + tally test (t.next e) es

/-- How often the rotation comes past `p`. -/
def laps (t : Trail) (p : InletId) (es : List (Entry L)) : Nat := tally (passes · p) t es

/-- How often `p` is overtaken. -/
def overtakings (t : Trail) (p : InletId) (es : List (Entry L)) : Nat := tally (overtakes · p) t es

theorem tally_append (test : Trail → Entry L → Bool) : ∀ (t : Trail) (es es' : List (Entry L)),
    tally test t (es ++ es') = tally test t es + tally test (es.foldl next t) es'
  | t, [], es' => by simp [tally]
  | t, e :: es, es' => by
    simp only [List.cons_append, tally, List.foldl_cons, tally_append test (t.next e) es es']
    omega

theorem laps_append (t : Trail) (p : InletId) (es es' : List (Entry L)) :
    t.laps p (es ++ es') = t.laps p es + (es.foldl next t).laps p es' := tally_append _ t es es'

theorem overtakings_append (t : Trail) (p : InletId) (es es' : List (Entry L)) :
    t.overtakings p (es ++ es') = t.overtakings p es + (es.foldl next t).overtakings p es' :=
  tally_append _ t es es'

theorem tally_eq_zero {test : Trail → Entry L → Bool} : ∀ (t : Trail) {es : List (Entry L)},
    (∀ e ∈ es, ∀ t, test t e = false) → tally test t es = 0
  | _, [], _ => rfl
  | t, e :: es, h => by
    rw [tally, h e (by simp) t, tally_eq_zero (t.next e) fun e' he' => h e' (List.mem_cons_of_mem e he')]
    rfl

/-- An entry that is no arrival leaves the rotation where it stands. -/
theorem turn_next {t : Trail} {e : Entry L} (h : e.served? = none) : (t.next e).turn = t.turn := by
  cases e with
  | arrived c k a => cases a <;> first | rfl | cases h
  | polled k r => cases r <;> rfl
  | _ => rfl

theorem passes_eq_false {t : Trail} {p : InletId} {e : Entry L} (h : e.served? = none) :
    t.passes p e = false := by
  cases e with
  | arrived c k a => cases a <;> first | rfl | cases h
  | _ => rfl

theorem overtakes_eq_false {t : Trail} {p : InletId} {e : Entry L} (h : e.served? = none) :
    t.overtakes p e = false := by
  cases e with
  | arrived c k a => cases a <;> first | rfl | cases h
  | _ => rfl

theorem foldl_next_of_quiet (turn : Nat) : ∀ {es : List (Entry L)}, (∀ e ∈ es, e.served? = none ∧ ¬ e.isPoll) →
    es.foldl next ⟨turn, none⟩ = ⟨turn, none⟩
  | [], _ => rfl
  | e :: es, h => by
    have hnext : next ⟨turn, none⟩ e = ⟨turn, none⟩ := by
      obtain ⟨hserved, hpoll⟩ := h e (by simp)
      cases e with
      | polled k r => exact absurd trivial hpoll
      | arrived c k a => cases a <;> first | rfl | cases hserved
      | _ => rfl
    rw [List.foldl_cons, hnext]
    exact foldl_next_of_quiet turn fun e' he' => h e' (List.mem_cons_of_mem e he')

/-- One entry: whoever is served, `p` moves up, or the rotation comes past `p`. -/
theorem rank_next {count : Nat} {p : InletId} {t : Trail} {e : Entry L} (ht : t.turn ≤ count) (hp : p < count)
    (hk : ∀ k, e.served? = some k → k < count) :
    (t.next e).turn ≤ count ∧ e.served?.toList.length + rank count (t.next e).turn p ≤
      rank count t.turn p + count * (t.passes p e).toNat := by
  cases hs : e.served? with
  | none =>
    rw [turn_next hs, passes_eq_false hs]
    exact ⟨ht, by simp⟩
  | some k =>
    have hkc := hk k hs
    have hnext : (t.next e).turn = k + 1 ∧ t.passes p e = decide (¬ Precedes t.turn k p) := by
      cases e with
      | arrived c k' a => cases a <;> cases hs; exact ⟨rfl, rfl⟩
      | _ => cases hs
    rw [hnext.1, hnext.2]
    refine ⟨hkc, ?_⟩
    show 1 + _ ≤ _
    by_cases hprec : Precedes t.turn k p
    · have := rank_succ_lt hkc ht hprec
      rw [decide_eq_false (not_not_intro hprec), Bool.toNat_false, Nat.mul_zero]
      omega
    · have := rank_lt (k + 1) hp
      rw [decide_eq_true hprec, Bool.toNat_true, Nat.mul_one]
      omega

/-- **The rotation comes round.** Every element handed over moves the rotation on: after as many as there are
inlets, it has come past each of them. -/
theorem length_le_laps {count : Nat} {p : InletId} (hp : p < count) : ∀ (t : Trail) (es : List (Entry L)),
    t.turn ≤ count → (∀ k ∈ served es, k < count) →
    (served es).length + rank count (es.foldl next t).turn p ≤ rank count t.turn p + count * t.laps p es
  | t, [], _, _ => by simp [served, laps, tally]
  | t, e :: es, ht, hes => by
    have hserved : served (e :: es) = e.served?.toList ++ served es := served_append [e] es
    obtain ⟨ht', hle⟩ := rank_next (t := t) ht hp fun k hk => hes k (by rw [hserved, hk]; simp)
    have ih := length_le_laps hp (t.next e) es ht' fun k hk => hes k (by rw [hserved]; simp [hk])
    have hlaps : t.laps p (e :: es) = (t.passes p e).toNat + (t.next e).laps p es := rfl
    rw [hserved, hlaps, List.length_append, List.foldl_cons, Nat.mul_add]
    omega

end Trail

/-- A stretch of history from the trail `t` to the trail `t'` that gives `p` its turns: whenever the rotation comes
past `p`, then `p` is served or overtaken. -/
structure Stretch (p : InletId) (t : Trail) (es : List (Entry L)) (t' : Trail) : Prop where
  arrives : es.foldl Trail.next t = t'
  fair : t.laps p es = (served es).count p + t.overtakings p es

namespace Stretch

variable {p : InletId} {t t' t'' : Trail} {es es' : List (Entry L)}

theorem append (h : Stretch p t es t') (h' : Stretch p t' es' t'') : Stretch p t (es ++ es') t'' := by
  refine ⟨by rw [List.foldl_append, h.arrives, h'.arrives], ?_⟩
  rw [Trail.laps_append, Trail.overtakings_append, served_append, List.count_append, h.arrives, h.fair, h'.fair]
  omega

/-- Entries that are no arrivals leave the rotation where it stands. -/
theorem of_unserved (p : InletId) (t : Trail) (h : ∀ e ∈ es, e.served? = none) :
    Stretch p t es ⟨t.turn, (es.foldl Trail.next t).fresh⟩ := by
  refine ⟨?_, ?_⟩
  · have hturn : (es.foldl Trail.next t).turn = t.turn := by
      induction es generalizing t with
      | nil => rfl
      | cons e es ih =>
        rw [List.foldl_cons, ih (t.next e) fun e' he' => h e' (List.mem_cons_of_mem e he')]
        exact Trail.turn_next (h e (by simp))
    rw [← hturn]
  · have hserved : served es = [] := List.filterMap_eq_nil_iff.2 h
    rw [hserved, Trail.laps, Trail.overtakings,
      Trail.tally_eq_zero t fun e he t => Trail.passes_eq_false (h e he),
      Trail.tally_eq_zero t fun e he t => Trail.overtakes_eq_false (h e he)]
    rfl

/-- Entries that are neither arrivals nor polls leave no trace. -/
theorem of_quiet (p turn : Nat) (h : ∀ e ∈ es, e.served? = none ∧ ¬ e.isPoll) :
    Stretch p ⟨turn, none⟩ es ⟨turn, none⟩ := by
  have hs := of_unserved p ⟨turn, none⟩ fun e he => (h e he).1
  rw [Trail.foldl_next_of_quiet turn h] at hs
  exact hs

/-- After an arrival in the course of the rotation, it stands behind the inlet that was served. -/
theorem of_element {c : Choice} {k : InletId} {x : α} (h : Precedes t.turn p k → t.fresh ≠ some k) :
    Stretch p t [(.arrived c k (.element x) : Entry L)] ⟨k + 1, none⟩ := by
  refine ⟨rfl, ?_⟩
  have hlaps : t.laps p [(.arrived c k (.element x) : Entry L)] = (decide (¬ Precedes t.turn k p)).toNat := rfl
  have hserved : served [(.arrived c k (.element x) : Entry L)] = [k] := rfl
  have hover : t.overtakings p [(.arrived c k (.element x) : Entry L)] =
      (t.fresh ≠ some k && decide (Precedes t.turn p k) : Bool).toNat := rfl
  rw [hlaps, hserved, hover]
  by_cases hk : k = p
  · subst hk
    simp [not_precedes_self]
  · rw [List.count_singleton, if_neg (by simpa using hk)]
    rcases precedes_total t.turn hk with hprec | hprec
    · simp [hprec, not_precedes hprec]
    · simp [hprec, not_precedes hprec, h hprec]

/-- The end or a failure of an inlet leaves the rotation where it stands. -/
theorem of_terminal (p : InletId) (t : Trail) {c : Choice} {k : InletId} {a : Arrival α} (h : a.isTerminal = true) :
    Stretch p t [(.arrived c k a : Entry L)] ⟨t.turn, none⟩ := by
  cases a with
  | element x => cases h
  | completed => exact ⟨rfl, rfl⟩
  | failed cause => exact ⟨rfl, rfl⟩

end Stretch
end StreamMerge
