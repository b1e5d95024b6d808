import StreamMerge.Proofs.Inlets

/-!
# What an attempt does

An attempt fills some inlets and takes from one of them at most. `Polls` says all that filling an inlet can do
beyond its frame; `attempt_cases` says what an attempt ends with.
-/
namespace StreamMerge

variable {α β : Type} {L : Strategy α β} {u : Source α}

/-! ## The order of reading -/

namespace Choice

theorem mem_insertOnce {p q : InletId} : ∀ {ps : List InletId}, q ∈ insertOnce p ps ↔ q = p ∨ q ∈ ps
  | [] => by simp [insertOnce]
  | r :: rs => by
    unfold insertOnce
    split
    · simp
    · split
      · rename_i hpr
        subst hpr
        simp
      · rw [List.mem_cons, mem_insertOnce, List.mem_cons]
        constructor
        · rintro (h | h | h)
          · exact Or.inr (Or.inl h)
          · exact Or.inl h
          · exact Or.inr (Or.inr h)
        · rintro (h | h | h)
          · exact Or.inr (Or.inl h)
          · exact Or.inl h
          · exact Or.inr (Or.inr h)

theorem mem_ascending {q : InletId} {ps : List InletId} : q ∈ ascending ps ↔ q ∈ ps := by
  unfold ascending
  induction ps with
  | nil => simp
  | cons p ps ih => rw [List.foldr_cons, mem_insertOnce, ih, List.mem_cons]

theorem mem_rotation {turn : Nat} {isOpen : InletId → Bool} {ps : List InletId} {q : InletId} :
    q ∈ rotation turn isOpen ps ↔ q ∈ ps ∧ isOpen q = true := by
  simp only [rotation, List.mem_append, List.mem_filter, mem_ascending, decide_eq_true_eq]
  constructor
  · rintro (⟨h, -⟩ | ⟨h, -⟩) <;> exact h
  · intro h
    rcases Nat.lt_or_ge q turn with hq | hq
    · exact Or.inr ⟨h, hq⟩
    · exact Or.inl ⟨h, hq⟩

/-- The reading order has exactly the open inlets that the choice names. -/
theorem mem_readingOrder {s : Choice} {turn : Nat} {isOpen : InletId → Bool} {q : InletId} :
    q ∈ s.readingOrder turn isOpen ↔ q ∈ s.inlets ∧ isOpen q = true := by
  cases s with
  | one p =>
    by_cases hp : isOpen p = true
    · simp only [readingOrder, inlets, hp, if_true, List.mem_singleton]
      constructor
      · rintro rfl; exact ⟨rfl, hp⟩
      · exact And.left
    · simp only [readingOrder, inlets, hp, List.mem_singleton]
      constructor
      · intro h; simp at h
      · rintro ⟨rfl, h⟩; exact absurd h hp
  | any ps => exact mem_rotation
  | preferred p ps =>
    simp only [readingOrder, inlets, List.mem_append, List.mem_filter, mem_rotation, List.mem_cons]
    constructor
    · rintro (h | ⟨h, -⟩)
      · split at h
        · rename_i hp
          obtain rfl := List.mem_singleton.1 h
          exact ⟨Or.inl rfl, hp⟩
        · simp at h
      · exact ⟨Or.inr h.1, h.2⟩
    · rintro ⟨rfl | h, ho⟩
      · exact Or.inl (by simp [ho])
      · by_cases hq : q = p
        · subst hq; exact Or.inl (by simp [ho])
        · exact Or.inr ⟨⟨h, ho⟩, by simpa using hq⟩

end Choice

namespace Merge

/-! ## Filling -/

@[simp] theorem history_call (p : InletId) : ∀ (n : Nat) (m : Merge L u),
    (m.call p n).history = m.history ++ List.replicate n (.called p)
  | 0, m => by simp [call]
  | n + 1, m => by
    rw [call, history_call p n, history_note, List.replicate_succ, List.append_assoc]
    rfl

@[simp] theorem inlets_call (p : InletId) : ∀ (n : Nat) (m : Merge L u), (m.call p n).inlets = m.inlets
  | 0, _ => rfl
  | n + 1, m => by rw [call, inlets_call p n]; rfl

theorem frame_send_cancel (m : Merge L u) : Frame m { m with link := m.link.send .cancel } := by
  unfold Link.send
  split
  · exact ⟨rfl, rfl, rfl, rfl, rfl, rfl, rfl, rfl, 1, rfl⟩
  · exact .refl m

theorem frame_call (p : InletId) : ∀ (n : Nat) (m : Merge L u), Frame m (m.call p n)
  | 0, m => .refl m
  | n + 1, m => (frame_send_cancel m).trans ((frame_note _ _).trans (frame_call p n _))

/-- Filling the inlet `p` of `m` leads to `m'` by a poll of its source in the state `s`. -/
structure Polls (m : Merge L u) (p : InletId) (q : Inlet u) (s : u.State) (m' : Merge L u) : Prop where
  here : m.inlets[p]? = some q
  empty : q.buffer = none
  source : q.source = some s
  inlets : m'.inlets = m.inlets.set p (q.store (u.poll s))
  history : m'.history =
    m.history ++ (List.replicate (u.poll s).cancels (.called p) ++ [.polled p (u.poll s).reply])

/-- An inlet that keeps nothing and has its source is polled. -/
theorem fill_polls {m : Merge L u} {p : InletId} {q : Inlet u} {s : u.State} (hq : m.inlets[p]? = some q)
    (hb : q.buffer = none) (hs : q.source = some s) : Polls m p q s (m.fill p) := by
  have hf : q.fill = (some (u.poll s), q.store (u.poll s)) := by
    unfold Inlet.fill
    rw [hb, hs]
  have hh : (({ m with inlets := m.inlets.set p (q.store (u.poll s)) } : Merge L u).call p
      (u.poll s).cancels).history = m.history ++ List.replicate (u.poll s).cancels (.called p) :=
    history_call p _ _
  unfold fill
  rw [hq]
  dsimp only
  rw [hf]
  refine ⟨hq, hb, hs, ?_, ?_⟩
  · dsimp only
    split <;> exact inlets_call p _ _
  · dsimp only
    split
    · exact (history_note _ _).trans (by rw [hh, List.append_assoc])
    · exact (history_note _ _).trans (by rw [hh, List.append_assoc])

theorem fill_cases (m : Merge L u) (p : InletId) : m.fill p = m ∨ ∃ q s, Polls m p q s (m.fill p) := by
  cases hq : m.inlets[p]? with
  | none => exact Or.inl (by unfold fill; rw [hq])
  | some q =>
    rcases q.fill_cases with h | ⟨s, hb, hs, -⟩
    · exact Or.inl (by unfold fill; rw [hq]; dsimp only; rw [h])
    · exact Or.inr ⟨q, s, fill_polls hq hb hs⟩

theorem frame_fill (m : Merge L u) (p : InletId) : Frame m (m.fill p) := by
  unfold fill
  split
  · exact .refl m
  · rename_i q hq
    rcases q.fill_cases with h | ⟨s, hb, hs, h⟩
    · rw [h]; exact .refl m
    · rw [h]
      have hset : Frame m { m with inlets := m.inlets.set p (q.store (u.poll s)) } :=
        ⟨rfl, rfl, rfl, by simp, rfl, rfl, rfl, rfl, 0, by simp⟩
      have hf := hset.trans ((frame_call p (u.poll s).cancels _).trans
        (frame_note _ (.polled p (u.poll s).reply)))
      dsimp only
      split
      · exact hf.trans ⟨rfl, rfl, rfl, rfl, rfl, rfl, rfl, rfl, 0, by simp [Link.wake]⟩
      · exact hf

theorem signals_call (p : InletId) : ∀ (n : Nat) (m : Merge L u), (m.call p n).link.signals =
    m.link.signals ++ if m.link.attached then List.replicate n .cancel else []
  | 0, m => by simp [call]
  | n + 1, m => by
    have hs := signals_call p n ({ m with link := m.link.send .cancel }.note (.called p))
    rw [call, hs]
    show (m.link.send .cancel).signals ++ (if (m.link.send .cancel).attached then _ else _) = _
    unfold Link.send
    by_cases ha : m.link.attached = true
    · simp [ha, List.replicate_succ]
    · simp [ha]

/-- The calls of a source for cancellation are signals to a run that takes signals. -/
theorem signals_fill {m : Merge L u} {p : InletId} {q : Inlet u} {s : u.State} (h : Polls m p q s (m.fill p)) :
    (m.fill p).link.signals =
      m.link.signals ++ if m.link.attached then List.replicate (u.poll s).cancels .cancel else [] := by
  have hf : q.fill = (some (u.poll s), q.store (u.poll s)) := by
    unfold Inlet.fill
    rw [h.empty, h.source]
  unfold fill
  rw [h.here]
  dsimp only
  rw [hf]
  dsimp only
  split <;> exact signals_call p _ _

/-- Which inlets are open depends on their statuses alone. -/
theorem inletIs_isOpen_set {m m' : Merge L u} {p : InletId} {q q' : Inlet u} (hq : m.inlets[p]? = some q)
    (h : m'.inlets = m.inlets.set p q') (ho : q'.isOpen = q.isOpen) :
    (m'.inletIs · (·.isOpen)) = (m.inletIs · (·.isOpen)) := by
  funext k
  unfold inletIs
  rw [h, List.getElem?_set]
  by_cases hp : p = k
  · subst hp
    obtain ⟨hlt, -⟩ := List.getElem?_eq_some_iff.1 hq
    rw [if_pos rfl, if_pos hlt, hq]
    exact ho
  · rw [if_neg hp]

theorem inletIs_isOpen_fill (m : Merge L u) (p : InletId) :
    ((m.fill p).inletIs · (·.isOpen)) = (m.inletIs · (·.isOpen)) := by
  rcases fill_cases m p with h | ⟨q, s, h⟩
  · rw [h]
  · exact inletIs_isOpen_set h.here h.inlets (Inlet.isOpen_store _ _)

/-- An entry that filling an inlet writes. -/
def isReading : Entry L → Prop
  | .called _ | .polled .. => True
  | _ => False

theorem extends_fill (m : Merge L u) (p : InletId) : Extends isReading m (m.fill p) := by
  rcases fill_cases m p with hf | ⟨q, s, hf⟩
  · rw [hf]; exact .refl m
  · refine ⟨_, hf.history, fun e he => ?_⟩
    rcases List.mem_append.1 he with he | he
    · rw [List.eq_of_mem_replicate he]; trivial
    · rw [List.mem_singleton.1 he]; trivial

/-! ## Seeking -/

theorem fillUntil_induction {motive : Merge L u → Prop} (h : ∀ m p, motive m → motive (m.fill p))
    (test : Inlet u → Bool) : ∀ (ps : List InletId) (m : Merge L u), motive m → motive (fillUntil test ps m).2
  | [], _, hm => hm
  | p :: ps, m, hm => by
    unfold fillUntil
    dsimp only
    split
    · exact h m p hm
    · exact fillUntil_induction h test ps _ (h m p hm)

theorem fillUntil_some {test : Inlet u → Bool} {p : InletId} : ∀ {ps : List InletId} {m : Merge L u},
    (fillUntil test ps m).1 = some p → p ∈ ps ∧ (fillUntil test ps m).2.inletIs p test = true
  | [], _, h => by simp [fillUntil] at h
  | k :: ks, m, h => by
    unfold fillUntil at h ⊢
    dsimp only at h ⊢
    split
    · rename_i ht
      rw [if_pos ht] at h
      obtain rfl := Option.some.inj h
      exact ⟨by simp, ht⟩
    · rename_i ht
      rw [if_neg ht] at h
      obtain ⟨hp, ht'⟩ := fillUntil_some h
      exact ⟨List.mem_cons_of_mem k hp, ht'⟩

/-- Seeking keeps whatever filling an inlet keeps. -/
theorem seek_induction {motive : Merge L u → Prop} (h : ∀ m p, motive m → motive (m.fill p))
    (m : Merge L u) (order : List InletId) (hm : motive m) : motive (m.seek order).2 := by
  unfold seek
  split
  · exact hm
  · split
    · exact hm
    · have h₁ := fillUntil_induction h (·.hasTerminal) (m.bystanders order) m hm
      split
      · rename_i hf; rw [hf] at h₁; exact h₁
      · rename_i hf; rw [hf] at h₁
        exact fillUntil_induction h (·.buffer.isSome) order _ h₁

theorem frame_seek (m : Merge L u) (order : List InletId) : Frame m (m.seek order).2 :=
  seek_induction (motive := Frame m) (fun _ p h => h.trans (frame_fill _ p)) m order (.refl m)

theorem extends_seek (m : Merge L u) (order : List InletId) : Extends isReading m (m.seek order).2 :=
  seek_induction (motive := Extends isReading m) (fun _ p h => h.trans (extends_fill _ p)) m order (.refl m)

theorem inletIs_isOpen_seek (m : Merge L u) (order : List InletId) :
    ((m.seek order).2.inletIs · (·.isOpen)) = (m.inletIs · (·.isOpen)) :=
  seek_induction (motive := fun m' => (m'.inletIs · (·.isOpen)) = (m.inletIs · (·.isOpen)))
    (fun m' p h => (inletIs_isOpen_fill m' p).trans h) m order rfl

/-- Seeking finds an element that is kept, or the end or a failure, or polls the named inlets. -/
theorem seek_cases (m : Merge L u) (order : List InletId) :
    (∃ k, order.find? (m.inletIs · (·.hasElement)) = some k ∧ m.seek order = (some k, m)) ∨
    (∃ k, (m.seek order).1 = some k ∧ (m.seek order).2.inletIs k (·.hasTerminal) = true) ∨
    (order.find? (m.inletIs · (·.hasElement)) = none ∧
      m.inletIds.find? (m.inletIs · fun q => q.isOpen && q.hasTerminal) = none ∧
      m.seek order =
        fillUntil (·.buffer.isSome) order (fillUntil (·.hasTerminal) (m.bystanders order) m).2) := by
  unfold seek
  split
  · rename_i k hk
    exact Or.inl ⟨k, hk, rfl⟩
  · rename_i hkept
    split
    · rename_i k hk
      have ht : m.inletIs k (fun q => q.isOpen && q.hasTerminal) = true :=
        List.find?_some (p := (m.inletIs · fun q => q.isOpen && q.hasTerminal)) hk
      obtain ⟨q, hq, ht⟩ := inletIs_iff.1 ht
      exact Or.inr (Or.inl ⟨k, rfl, inletIs_iff.2 ⟨q, hq, (Bool.and_eq_true_iff.1 ht).2⟩⟩)
    · rename_i hended
      split
      · rename_i k m₁ hf
        have ht := (fillUntil_some (congrArg Prod.fst hf)).2
        rw [hf] at ht
        exact Or.inr (Or.inl ⟨k, rfl, ht⟩)
      · rename_i m₁ hf
        exact Or.inr (Or.inr ⟨hkept, hended, by rw [hf]⟩)

/-- The inlet that was found keeps something; if that is an element, the inlet is one of `order`. -/
theorem seek_some {m : Merge L u} {order : List InletId} {p : InletId} (h : (m.seek order).1 = some p) :
    ∃ q a, (m.seek order).2.inlets[p]? = some q ∧ q.buffer = some a ∧
      (a.isTerminal = false → p ∈ order) := by
  rcases seek_cases m order with ⟨k, hk, hs⟩ | ⟨k, hk, ht⟩ | ⟨-, -, hs⟩
  · rw [hs] at h ⊢
    obtain rfl := Option.some.inj h
    have ht : m.inletIs k (·.hasElement) = true := List.find?_some (p := (m.inletIs · (·.hasElement))) hk
    obtain ⟨q, hq, he⟩ := inletIs_iff.1 ht
    obtain ⟨x, hx⟩ := Inlet.hasElement_iff.1 he
    exact ⟨q, _, hq, hx, fun _ => List.mem_of_find?_eq_some hk⟩
  · obtain rfl := Option.some.inj (hk.symm.trans h)
    obtain ⟨q, hq, ht⟩ := inletIs_iff.1 ht
    obtain ⟨a, ha, ht⟩ := Inlet.hasTerminal_iff.1 ht
    exact ⟨q, a, hq, ha, by simp [ht]⟩
  · rw [hs] at h ⊢
    obtain ⟨hp, ht⟩ := fillUntil_some h
    obtain ⟨q, hq, ht⟩ := inletIs_iff.1 ht
    obtain ⟨a, ha⟩ := Option.isSome_iff_exists.1 ht
    exact ⟨q, a, hq, ha, fun _ => hp⟩

/-! ## The whole attempt -/

theorem takeFrom_of_kept {m : Merge L u} {p : InletId} {q : Inlet u} {a : Arrival α} (hq : m.inlets[p]? = some q)
    (ha : q.buffer = some a) : m.takeFrom p = (some (p, a), m.putInlet p q.take.2) := by
  have ht := Inlet.take_kept ha
  cases htk : q.take with
  | mk taken q' =>
    rw [htk] at ht
    dsimp only at ht ⊢
    simp only [takeFrom, hq, htk, ht]

/-- An attempt ends with nothing, or takes what an inlet keeps after seeking. -/
theorem attempt_cases (m : Merge L u) (order : List InletId) :
    ((m.seek order).1 = none ∧ m.attempt order = (none, (m.seek order).2)) ∨
    ∃ p a q, (m.seek order).1 = some p ∧ (m.seek order).2.inlets[p]? = some q ∧ q.buffer = some a ∧
      m.attempt order = (some (p, a), (m.seek order).2.putInlet p q.take.2) := by
  unfold attempt
  cases hs : m.seek order with
  | mk found m₁ =>
    cases found with
    | none => exact Or.inl ⟨rfl, rfl⟩
    | some p =>
      have hp : (m.seek order).1 = some p := by rw [hs]
      obtain ⟨q, a, hq, ha, -⟩ := seek_some hp
      rw [hs] at hq
      exact Or.inr ⟨p, a, q, rfl, hq, ha, takeFrom_of_kept hq ha⟩

end Merge
end StreamMerge
