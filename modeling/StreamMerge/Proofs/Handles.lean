import Mathlib.Data.List.Induction
import Mathlib.Data.List.Nodup
import Mathlib.Data.List.Perm.Subperm
import StreamMerge.Strategy.Rules
import StreamMerge.Merge

/-!
# Declared inlets

A strategy declares the inlets of its merge in any order it likes, but it has to declare all of them, and each once
(`misfit?_tells`). `Misfits` says what is wrong with a list that is none of these arrangements, without saying how
that is found out: the first inlet that must not stand where it stands, or, if there is none, that some are missing.
-/
namespace StreamMerge

variable {count : Nat} {declared before after ps : List InletId} {p : InletId} {w w' : Misfit}

/-! ## What can be wrong -/

/-- Inlets that may be declared together: each is connected, and none is repeated. -/
structure Admissible (count : Nat) (ps : List InletId) : Prop where
  nodup : ps.Nodup
  connected : ∀ p ∈ ps, p < count

/-- After the inlets `before`, the inlet `p` must not be declared. -/
inductive Offends (count : Nat) (before : List InletId) (p : InletId) : Misfit → Prop
  | notConnected : count ≤ p → Offends count before p (.notConnected p count)
  | declaredTwice : p ∈ before → Offends count before p (.declaredTwice p)

/-- What is wrong with declared inlets: the first one that offends, or that there are too few. -/
inductive Misfits (count : Nat) (declared : List InletId) : Misfit → Prop
  | offends (before after : List InletId) (p : InletId) (w : Misfit) : declared = before ++ p :: after →
      Admissible count before → Offends count before p w → Misfits count declared w
  | undeclared : Admissible count declared → declared.length < count →
      Misfits count declared (.undeclared declared.length count)

namespace Admissible

theorem nil : Admissible count [] := ⟨List.nodup_nil, fun _ hp => by cases hp⟩

theorem concat (h : Admissible count before) (hp : p < count) (hn : p ∉ before) :
    Admissible count (before ++ [p]) := by
  refine ⟨List.nodup_append.2 ⟨h.nodup, List.nodup_singleton p, fun q hq r hr => ?_⟩, fun q hq => ?_⟩
  · rw [List.mem_singleton.1 hr]
    exact fun he => hn (he ▸ hq)
  · rcases List.mem_append.1 hq with hq | hq
    · exact h.connected q hq
    · exact List.mem_singleton.1 hq ▸ hp

theorem subperm (h : Admissible count ps) : ps.Subperm (List.range count) :=
  List.subperm_of_subset h.nodup fun p hp => List.mem_range.2 (h.connected p hp)

/-- There are no more of them than are connected. -/
theorem length_le (h : Admissible count ps) : ps.length ≤ count := by
  simpa using h.subperm.length_le

/-- The arrangements of all inlets are the admissible lists of full length. -/
theorem perm_range_iff : ps.Perm (List.range count) ↔ Admissible count ps ∧ ps.length = count := by
  constructor
  · intro h
    refine ⟨⟨h.nodup_iff.2 List.nodup_range, fun p hp => List.mem_range.1 (h.subset hp)⟩, ?_⟩
    simpa using h.length_eq
  · rintro ⟨h, hlen⟩
    exact h.subperm.perm_of_length_le (by simp [hlen])

end Admissible

/-- An inlet that offends has its place at the end of no admissible list. -/
theorem Offends.not_admissible (h : Offends count before p w) : ¬ Admissible count (before ++ p :: after) := by
  intro ha
  cases h with
  | notConnected hp => exact absurd (ha.connected p (by simp)) (Nat.not_lt.2 hp)
  | declaredTwice hp => exact (List.nodup_append.1 ha.nodup).2.2 p hp p (by simp) rfl

/-- The wording of an error names the inlet that offends. -/
theorem Offends.message (h : Offends count before p w) (merge : String) :
    ∃ front back, (MergeError.configuration merge w).message = front ++ p.label ++ back := by
  cases h with
  | notConnected =>
    refine ⟨s!"{merge} declares input handle ", s!", which is not connected ({count} inputs)", ?_⟩
    unfold MergeError.message Misfit.message
    dsimp only
    rw [String.append_assoc, String.append_assoc]
    rfl
  | declaredTwice => exact ⟨s!"{merge} lists input handle ", " twice", rfl⟩

/-! ## What is found -/

namespace misfit?

/-- Inlets that may be declared are passed over. -/
theorem go_append : ∀ (ps seen rest : List InletId), (∀ p ∈ ps, p < count) → ps.Nodup → (∀ p ∈ ps, p ∉ seen) →
    go count declared seen (ps ++ rest) = go count declared (ps.reverse ++ seen) rest
  | [], _, _, _, _, _ => rfl
  | p :: ps, seen, rest, hlt, hnodup, hseen => by
    obtain ⟨hp, hrest⟩ := List.nodup_cons.1 hnodup
    have ih := go_append ps (p :: seen) rest (fun q hq => hlt q (List.mem_cons_of_mem p hq)) hrest fun q hq => by
      rintro (_ | ⟨_, hmem⟩)
      · exact hp hq
      · exact hseen q (List.mem_cons_of_mem p hq) hmem
    have hcount : ¬ count ≤ p := Nat.not_le.2 (hlt p List.mem_cons_self)
    rw [List.cons_append, go, if_neg hcount, if_neg (hseen p List.mem_cons_self), ih, List.reverse_cons,
      List.append_assoc]
    rfl

theorem go_admissible (h : Admissible count before) (rest : List InletId) :
    go count declared [] (before ++ rest) = go count declared before.reverse rest := by
  rw [go_append before [] rest h.connected h.nodup fun _ _ => List.not_mem_nil, List.append_nil]

end misfit?

/-- Only the number of admissible inlets can be wrong. -/
theorem misfit?_of_admissible (h : Admissible count declared) :
    misfit? count declared = if declared.length = count then none else some (.undeclared declared.length count) := by
  have hgo : misfit?.go count declared [] (declared ++ []) = misfit?.go count declared declared.reverse [] :=
    misfit?.go_admissible h []
  rw [List.append_nil] at hgo
  exact hgo

/-- The first inlet that offends is found. -/
theorem misfit?_of_offends (h : Admissible count before) (ho : Offends count before p w) :
    misfit? count (before ++ p :: after) = some w := by
  rw [misfit?, misfit?.go_admissible h, misfit?.go]
  cases ho with
  | notConnected hp => rw [if_pos hp]
  | declaredTwice hp => rw [if_neg (Nat.not_le.2 (h.connected p hp)), if_pos (List.mem_reverse.2 hp)]

/-- Inlets may be declared together, or one of them is the first that offends. -/
theorem admissible_or_offends (count : Nat) (declared : List InletId) : Admissible count declared ∨
    ∃ before p after w, declared = before ++ p :: after ∧ Admissible count before ∧ Offends count before p w := by
  induction declared using List.reverseRecOn with
  | nil => exact Or.inl .nil
  | append_singleton ps p ih =>
    rcases ih with h | ⟨before, q, after, w, rfl, hb, ho⟩
    · rcases Nat.lt_or_ge p count with hlt | hge
      · by_cases hp : p ∈ ps
        · exact Or.inr ⟨ps, p, [], _, rfl, h, .declaredTwice hp⟩
        · exact Or.inl (h.concat hlt hp)
      · exact Or.inr ⟨ps, p, [], _, rfl, h, .notConnected hge⟩
    · exact Or.inr ⟨before, q, after ++ [p], w, by simp, hb, ho⟩

theorem misfit?_eq_none_iff : misfit? count declared = none ↔ declared.Perm (List.range count) := by
  rw [Admissible.perm_range_iff]
  rcases admissible_or_offends count declared with h | ⟨before, p, after, w, rfl, hb, ho⟩
  · rw [misfit?_of_admissible h]
    simp [h]
  · rw [misfit?_of_offends hb ho]
    simp [ho.not_admissible]

theorem misfit?_of_misfits (h : Misfits count declared w) : misfit? count declared = some w := by
  cases h with
  | offends before after p w heq hb ho => rw [heq, misfit?_of_offends hb ho]
  | undeclared ha hlt => rw [misfit?_of_admissible ha, if_neg (Nat.ne_of_lt hlt)]

theorem misfit?_eq_some_iff : misfit? count declared = some w ↔ Misfits count declared w := by
  refine ⟨fun h => ?_, misfit?_of_misfits⟩
  rcases admissible_or_offends count declared with ha | ⟨before, p, after, w', rfl, hb, ho⟩
  · rw [misfit?_of_admissible ha] at h
    split at h
    · cases h
    · rename_i hne
      obtain rfl := Option.some.inj h
      exact .undeclared ha (Nat.lt_of_le_of_ne ha.length_le hne)
  · rw [misfit?_of_offends hb ho] at h
    obtain rfl := Option.some.inj h
    exact .offends before after p w' rfl hb ho

/-- What becomes of the inlets that a strategy declares. -/
theorem Merge.declare_of_handles {α β : Type} {L : Strategy α β}
    (h : (L.handles L.fresh count).1 = .ok declared) :
    (declare L count).1 = match misfit? count declared with
      | none => .ok declared
      | some w => .error (.configuration L.name w) := by
  unfold declare
  rcases hh : L.handles L.fresh count with ⟨e | inlets, memory⟩
  · rw [hh] at h
    cases h
  · rw [hh] at h
    obtain rfl := Except.ok.inj h
    dsimp only
    cases misfit? count inlets <;> rfl

/-- **A strategy declares all inlets of its merge, and each once.** Every arrangement of them is accepted and nothing
else; otherwise the merge cannot be set up, and the error names the first inlet that is not connected or repeats an
earlier one, or, if there is none, says that too few are declared. -/
theorem misfit?_tells (count : Nat) (declared : List InletId) :
    (misfit? count declared = none ↔ declared.Perm (List.range count)) ∧
    (∀ w, misfit? count declared = some w ↔ Misfits count declared w) ∧
    (∀ before p w, Offends count before p w → ∀ merge, ∃ front back,
      (MergeError.configuration merge w).message = front ++ p.label ++ back) ∧
    ∀ {α β : Type} (L : Strategy α β), (L.handles L.fresh count).1 = .ok declared →
      ((Merge.declare L count).1 = .ok declared ↔ declared.Perm (List.range count)) ∧
      ∀ e, (Merge.declare L count).1 = .error e ↔ ∃ w, Misfits count declared w ∧ e = .configuration L.name w := by
  refine ⟨misfit?_eq_none_iff, fun w => misfit?_eq_some_iff, fun before p w h merge => h.message merge,
    fun L hL => ?_⟩
  rw [Merge.declare_of_handles hL, ← misfit?_eq_none_iff]
  cases hw : misfit? count declared with
  | none => simp [← misfit?_eq_some_iff, hw]
  | some w => simp [← misfit?_eq_some_iff, hw, eq_comm]

/-- The third of these inlets repeats the first, and the fourth, which is not connected, comes too late to be named. -/
theorem misfit?_tells_repeated : (Merge.declare (RuleTable.strategy
      ⟨"Rota", 0, .exhaust, .listed [2, 0, 2, 5], [], [], false⟩) 3).1 =
    .error (.configuration "Rota" (.declaredTwice 2)) := by
  have h := (misfit?_tells 3 [2, 0, 2, 5]).2.2.2 (RuleTable.strategy
    ⟨"Rota", 0, .exhaust, .listed [2, 0, 2, 5], [], [], false⟩) rfl
  have hmisfit : Misfits 3 [2, 0, 2, 5] (.declaredTwice 2) :=
    .offends [2, 0] [5] 2 _ rfl ⟨by decide, by decide⟩ (.declaredTwice (by decide))
  exact (h.2 _).2 ⟨_, hmisfit, rfl⟩

end StreamMerge
