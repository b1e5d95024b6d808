import StreamMerge.Proofs.Accounts

/-!
# How an attempt finds an element

An attempt finds an element in one of two ways (`seek_element`): some named inlet keeps one already, and then
nothing is polled; or none does, and the named inlets are polled in their order, up to the first that answers.
-/
namespace StreamMerge

variable {α β : Type} {L : Strategy α β} {u : Source α}

/-- The inlet that was polled, with the answer of its source. -/
def Entry.reading? : Entry L → Option (InletId × Reply α)
  | .polled p r => some (p, r)
  | _ => none

theorem Entry.reading?_of_not_isPoll {e : Entry L} (h : ¬ e.isPoll) : e.reading? = none := by
  cases e <;> first | rfl | exact absurd trivial h

namespace Merge

/-! ## What an inlet keeps -/

/-- What the inlet `p` keeps. -/
def buffer? (m : Merge L u) (p : InletId) : Option (Arrival α) := m.inlets[p]?.bind (·.buffer)

theorem inletIs_hasElement (m : Merge L u) (p : InletId) :
    m.inletIs p (·.hasElement) = (m.buffer? p).any (!·.isTerminal) := by
  unfold inletIs buffer?
  cases m.inlets[p]? <;> rfl

theorem inletIs_hasTerminal (m : Merge L u) (p : InletId) :
    m.inletIs p (·.hasTerminal) = (m.buffer? p).any (·.isTerminal) := by
  unfold inletIs buffer?
  cases m.inlets[p]? <;> rfl

theorem inletIs_isSome (m : Merge L u) (p : InletId) : m.inletIs p (·.buffer.isSome) = (m.buffer? p).isSome := by
  unfold inletIs buffer?
  cases m.inlets[p]? <;> rfl

/-! ## Filling in turn -/

/-- The inlet `p` keeps nothing and has its source, so that filling it polls the source. -/
def Pollable (m : Merge L u) (p : InletId) : Prop :=
  ∃ q s, m.inlets[p]? = some q ∧ q.buffer = none ∧ q.source = some s

theorem getElem?_fill_of_ne {m : Merge L u} {p k : InletId} (h : p ≠ k) :
    (m.fill p).inlets[k]? = m.inlets[k]? := by
  rcases fill_cases m p with hf | ⟨q, s, hf⟩
  · rw [hf]
  · rw [hf.inlets, List.getElem?_set_ne h]

theorem buffer?_fill_of_ne {m : Merge L u} {p k : InletId} (h : p ≠ k) : (m.fill p).buffer? k = m.buffer? k := by
  rw [buffer?, getElem?_fill_of_ne h]
  rfl

theorem fillUntil_cons (test : Inlet u → Bool) (p : InletId) (ps : List InletId) (m : Merge L u) :
    fillUntil test (p :: ps) m =
      if (m.fill p).inletIs p test then (some p, m.fill p) else fillUntil test ps (m.fill p) := rfl

theorem getElem?_fillUntil (test : Inlet u → Bool) {k : InletId} : ∀ (ps : List InletId) (m : Merge L u),
    k ∉ ps → (fillUntil test ps m).2.inlets[k]? = m.inlets[k]?
  | [], _, _ => rfl
  | p :: ps, m, h => by
    have hne : p ≠ k := fun he => h (by simp [he])
    rw [fillUntil_cons]
    split
    · exact getElem?_fill_of_ne hne
    · rw [getElem?_fillUntil test ps _ fun hk => h (List.mem_cons_of_mem p hk), getElem?_fill_of_ne hne]

theorem extends_fillUntil (test : Inlet u → Bool) (ps : List InletId) (m : Merge L u) :
    Extends isReading m (fillUntil test ps m).2 :=
  fillUntil_induction (motive := Extends isReading m) (fun _ p h => h.trans (extends_fill _ p)) test ps m (.refl m)

/-- A poll after which the inlet still keeps nothing was answered by nothing yet. -/
theorem Polls.pending {m m' : Merge L u} {p : InletId} {q : Inlet u} {s : u.State} (h : Polls m p q s m')
    (ht : m'.inletIs p (·.buffer.isSome) = false) : ∃ again, (u.poll s).reply = .pending again := by
  have hlt := (List.getElem?_eq_some_iff.1 h.here).1
  rw [inletIs, h.inlets, List.getElem?_set_self hlt] at ht
  have hb : (q.store (u.poll s)).buffer.isSome = false := ht
  rw [Inlet.buffer_store h.empty] at hb
  cases hr : (u.poll s).reply with
  | pending again => exact ⟨again, rfl⟩
  | _ => rw [hr] at hb; cases hb

/-- Inlets that were polled in vain have answered that they have nothing yet. -/
theorem pending_of_fillUntil : ∀ {ps : List InletId} {m : Merge L u} {es : List (Entry L)} {p : InletId},
    (fillUntil (·.buffer.isSome) ps m).1 = none →
    (fillUntil (·.buffer.isSome) ps m).2.history = m.history ++ es → p ∈ ps → m.Pollable p →
    ∃ again, .polled p (.pending again) ∈ es
  | [], _, _, _, _, _, hp, _ => by cases hp
  | k :: ps, m, es, p, h, hes, hp, hpoll => by
    obtain ⟨es₁, hes₁, -⟩ := extends_fill m k
    obtain ⟨es₂, hes₂, -⟩ := extends_fillUntil (·.buffer.isSome) ps (m.fill k)
    rw [fillUntil_cons] at h hes
    split at h
    · cases h
    · rename_i ht
      rw [if_neg ht, hes₂, hes₁, List.append_assoc] at hes
      obtain rfl := List.append_cancel_left hes
      by_cases hk : k = p
      · subst hk
        obtain ⟨q, s, hq, hb, hs⟩ := hpoll
        have hpolls := fill_polls hq hb hs
        obtain ⟨again, hr⟩ := hpolls.pending (eq_false_of_ne_true ht)
        have heq := List.append_cancel_left (hes₁.symm.trans hpolls.history)
        exact ⟨again, by rw [heq, hr]; simp⟩
      · obtain ⟨again, hmem⟩ := pending_of_fillUntil h hes₂
          ((List.mem_cons.1 hp).resolve_left fun he => hk he.symm)
          (by obtain ⟨q, s, hq, hb, hs⟩ := hpoll; exact ⟨q, s, (getElem?_fill_of_ne hk).trans hq, hb, hs⟩)
        exact ⟨again, List.mem_append_right es₁ hmem⟩

/-- The inlet found is the first of its list that answers. -/
theorem fillUntil_found {test : Inlet u → Bool} {k : InletId} : ∀ {ps : List InletId} {m : Merge L u},
    (fillUntil test ps m).1 = some k → ∃ pre post, ps = pre ++ k :: post ∧ (fillUntil test pre m).1 = none ∧
      (fillUntil test ps m).2 = (fillUntil test pre m).2.fill k
  | [], _, h => by cases h
  | p :: ps, m, h => by
    rw [fillUntil_cons] at h ⊢
    split
    · rename_i ht
      rw [if_pos ht] at h
      obtain rfl := Option.some.inj h
      exact ⟨[], ps, rfl, rfl, rfl⟩
    · rename_i ht
      rw [if_neg ht] at h
      obtain ⟨pre, post, rfl, hnone, hfill⟩ := fillUntil_found h
      refine ⟨p :: pre, post, rfl, ?_, ?_⟩
      · rw [fillUntil_cons, if_neg ht, hnone]
      · rw [fillUntil_cons, if_neg ht, hfill]

theorem Pollable.fill {m : Merge L u} {p k : InletId} (h : m.Pollable p)
    (ht : (m.fill k).inletIs k (·.buffer.isSome) = false) : (m.fill k).Pollable p := by
  obtain ⟨q, s, hq, hb, hs⟩ := h
  by_cases hk : k = p
  · subst hk
    have hpolls := fill_polls hq hb hs
    have hq' : (m.fill k).inlets[k]? = some (q.store (u.poll s)) := by
      rw [hpolls.inlets, List.getElem?_set_self (List.getElem?_eq_some_iff.1 hq).1]
    rw [inletIs_iff_of_some hq'] at ht
    exact ⟨_, _, hq', by simpa using ht, Inlet.source_store q _⟩
  · exact ⟨q, s, (getElem?_fill_of_ne hk).trans hq, hb, hs⟩

/-- Polling in vain ends with an answer that says so. -/
theorem last_of_fillUntil : ∀ {ps : List InletId} {m : Merge L u}, ps ≠ [] → (∀ r ∈ ps, m.Pollable r) →
    (fillUntil (·.buffer.isSome) ps m).1 = none →
    ∃ es k again, (fillUntil (·.buffer.isSome) ps m).2.history = m.history ++ es ++ [.polled k (.pending again)]
  | [], _, hne, _, _ => absurd rfl hne
  | [k], m, _, hpoll, h => by
    obtain ⟨q, s, hq, hb, hs⟩ := hpoll k (by simp)
    have hpolls := fill_polls hq hb hs
    rw [fillUntil_cons] at h ⊢
    split at h
    · cases h
    · rename_i ht
      obtain ⟨again, hr⟩ := hpolls.pending (eq_false_of_ne_true ht)
      rw [if_neg ht]
      refine ⟨List.replicate (u.poll s).cancels (.called k), k, again, ?_⟩
      rw [List.append_assoc, ← hr]
      exact hpolls.history
  | k :: k' :: ps, m, _, hpoll, h => by
    obtain ⟨es, hes, -⟩ := extends_fill m k
    rw [fillUntil_cons] at h ⊢
    split at h
    · cases h
    · rename_i ht
      obtain ⟨es', p, again, hes'⟩ := last_of_fillUntil (by simp)
        (fun r hr => (hpoll r (List.mem_cons_of_mem k hr)).fill (eq_false_of_ne_true ht)) h
      rw [if_neg ht]
      exact ⟨es ++ es', p, again, by rw [hes', hes]; simp⟩

/-! ## Seeking -/

/-- The inlet `p` is open and has its source. -/
def Live (m : Merge L u) (p : InletId) : Prop :=
  ∃ q s, m.inlets[p]? = some q ∧ q.isOpen = true ∧ q.source = some s

theorem live_of_mem {m : Merge L u} (hb : m.Balanced) (choice : Choice) {turn : Nat} {r : InletId}
    (hr : r ∈ choice.readingOrder turn (m.inletIs · (·.isOpen))) : m.Live r := by
  obtain ⟨q, hq, ho⟩ := inletIs_iff.1 (Choice.mem_readingOrder.1 hr).2
  have hs := (hb r q hq).sound.source_isSome
  rw [show (m.account r q).inlet = q from rfl, ho] at hs
  obtain ⟨s, hs⟩ := Option.isSome_iff_exists.1 hs
  exact ⟨q, s, hq, ho, hs⟩

/-- Without anything kept or ended, the named inlets are polled when the bystanders have been. -/
theorem pollable_bystanders {m : Merge L u} {order : List InletId} (hlive : ∀ r ∈ order, m.Live r)
    (hkept : order.find? (m.inletIs · (·.hasElement)) = none)
    (hended : m.inletIds.find? (m.inletIs · fun q => q.isOpen && q.hasTerminal) = none) :
    ∀ r ∈ order, (fillUntil (·.hasTerminal) (m.bystanders order) m).2.Pollable r := by
  intro r hr
  obtain ⟨q, s, hq, ho, hs⟩ := hlive r hr
  have hnot : r ∉ m.bystanders order := by
    unfold bystanders
    simp [hr]
  refine ⟨q, s, (getElem?_fillUntil _ _ m hnot).trans hq, ?_, hs⟩
  have hel : m.inletIs r (·.hasElement) = false := by simpa using List.find?_eq_none.1 hkept r hr
  have hend : m.inletIs r (fun q => q.isOpen && q.hasTerminal) = false := by
    have hlt : r ∈ m.inletIds := List.mem_range.2 (List.getElem?_eq_some_iff.1 hq).1
    simpa using List.find?_eq_none.1 hended r hlt
  rw [inletIs_iff_of_some hq] at hel hend
  unfold Inlet.hasElement at hel
  unfold Inlet.hasTerminal at hend
  rw [ho, Bool.true_and] at hend
  cases hb : q.buffer with
  | none => rfl
  | some a =>
    rw [hb] at hel hend
    cases a <;> simp [Arrival.isTerminal] at hel hend

/-- The inlets named before the one whose element is found have nothing yet. -/
theorem fillUntil_element {m : Merge L u} {order : List InletId} {k : InletId} {q : Inlet u} {x : α}
    (hpoll : ∀ r ∈ order, m.Pollable r) (hnd : order.Nodup)
    (hk : (fillUntil (·.buffer.isSome) order m).1 = some k)
    (hq : (fillUntil (·.buffer.isSome) order m).2.inlets[k]? = some q) (hx : q.buffer = some (.element x)) :
    ∃ pre post es es', order = pre ++ k :: post ∧
      (fillUntil (·.buffer.isSome) order m).2.history = m.history ++ es ++ es' ++ [.polled k (.element x)] ∧
      ∀ r ∈ pre, ∃ again, .polled r (.pending again) ∈ es := by
  obtain ⟨pre, post, rfl, hnone, hfill⟩ := fillUntil_found hk
  obtain ⟨es, hes, -⟩ := extends_fillUntil (·.buffer.isSome) pre m
  have hnot : k ∉ pre := fun h => (List.nodup_append.1 hnd).2.2 k h k (by simp) rfl
  obtain ⟨q₀, s, hq₀, hb, hs⟩ := hpoll k (by simp)
  have hpolls := fill_polls ((getElem?_fillUntil (·.buffer.isSome) pre m hnot).trans hq₀) hb hs
  have hreply : (u.poll s).reply = .element x := by
    rw [hfill, hpolls.inlets, List.getElem?_set_self (List.getElem?_eq_some_iff.1 hpolls.here).1] at hq
    obtain rfl := Option.some.inj hq
    rw [Inlet.buffer_store hb] at hx
    cases hr : (u.poll s).reply <;> rw [hr] at hx <;> cases hx
    rfl
  refine ⟨pre, post, es, List.replicate (u.poll s).cancels (.called k), rfl, ?_, fun r hr => ?_⟩
  · rw [hfill, hpolls.history, hes, hreply]
    simp
  · exact pending_of_fillUntil hnone hes hr (hpoll r (by simp [hr]))

/-- **How an element is found.** Either some named inlet keeps an element, and the first of them is taken; or none
does, and the first named inlet that answers is taken, after those before it have answered that they have
nothing yet. -/
theorem seek_element {m : Merge L u} {order : List InletId} {k : InletId} {q : Inlet u} {x : α}
    (hlive : ∀ r ∈ order, m.Live r) (hnd : order.Nodup) (hk : (m.seek order).1 = some k)
    (hq : (m.seek order).2.inlets[k]? = some q) (hx : q.buffer = some (.element x)) :
    (order.find? (m.inletIs · (·.hasElement)) = some k ∧ (m.seek order).2 = m) ∨
    ∃ pre post es es', order = pre ++ k :: post ∧
      (m.seek order).2.history = m.history ++ es ++ es' ++ [.polled k (.element x)] ∧
      ∀ r ∈ pre, ∃ again, .polled r (.pending again) ∈ es := by
  rcases seek_cases m order with ⟨r, hr, hs⟩ | ⟨r, hr, ht⟩ | ⟨hkept, hended, hs⟩
  · rw [hs] at hk ⊢
    obtain rfl := Option.some.inj hk
    exact Or.inl ⟨hr, rfl⟩
  · obtain rfl := Option.some.inj (hr.symm.trans hk)
    rw [inletIs_iff_of_some hq, Inlet.hasTerminal, hx] at ht
    cases ht
  · obtain ⟨es₀, hes₀, -⟩ := extends_fillUntil (·.hasTerminal) (m.bystanders order) m
    rw [hs] at hk hq ⊢
    obtain ⟨pre, post, es, es', horder, hes, hpending⟩ :=
      fillUntil_element (pollable_bystanders hlive hkept hended) hnd hk hq hx
    refine Or.inr ⟨pre, post, es₀ ++ es, es', horder, ?_, fun r hr => ?_⟩
    · rw [hes, hes₀]
      simp
    · obtain ⟨again, hmem⟩ := hpending r hr
      exact ⟨again, List.mem_append_right es₀ hmem⟩

/-- **How nothing is found.** An attempt in vain ends with the answer of a named inlet that it has nothing yet. -/
theorem seek_none {m : Merge L u} {order : List InletId} (hlive : ∀ r ∈ order, m.Live r) (hne : order ≠ [])
    (h : (m.seek order).1 = none) :
    ∃ es k again, (m.seek order).2.history = m.history ++ es ++ [.polled k (.pending again)] := by
  rcases seek_cases m order with ⟨r, -, hs⟩ | ⟨r, hr, -⟩ | ⟨hkept, hended, hs⟩
  · rw [hs] at h
    cases h
  · rw [hr] at h
    cases h
  · obtain ⟨es₀, hes₀, -⟩ := extends_fillUntil (·.hasTerminal) (m.bystanders order) m
    rw [hs] at h ⊢
    obtain ⟨es, k, again, hes⟩ := last_of_fillUntil hne (pollable_bystanders hlive hkept hended) h
    exact ⟨es₀ ++ es, k, again, by rw [hes, hes₀, List.append_assoc m.history]⟩

end Merge
end StreamMerge
