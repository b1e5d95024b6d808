import StreamMerge.Proofs.Course
import StreamMerge.Proofs.Seeking

/-!
# What the sources answer

The end or failure of a source is taken up by the same attempt that polled it: an attempt reads it only to find it
(`Tidy.seek`), right after the answer the source is given up, and then the event is taken up (`Tidy.accepts`). So
between two steps no inlet keeps an end or a failure: a merge is `Tidy`.
-/
namespace StreamMerge

variable {α β : Type} {L : Strategy α β} {u : Source α}

/-- Nothing follows this answer. -/
def Reply.isLast : Reply α → Bool
  | .ended | .failed _ => true
  | _ => false

theorem Reply.isLast_eq (r : Reply α) : r.isLast = (Arrival.ofReply? r).any (·.isTerminal) := by
  cases r <;> rfl

theorem Reply.isLast_iff {r : Reply α} :
    r.isLast = true ↔ ∃ a, Arrival.ofReply? r = some a ∧ a.isTerminal = true := by
  cases r <;> simp [isLast, Arrival.ofReply?, Arrival.isTerminal]

namespace Entry

/-- No source brings its end or a failure. -/
def isEarly : Entry L → Prop
  | .polled _ r => r.isLast = false
  | _ => True

theorem isEarly_of_not_isPoll {e : Entry L} (h : ¬ e.isPoll) : e.isEarly := by
  cases e with
  | polled => exact absurd trivial h
  | _ => trivial

theorem isEarly_of_isSideline {e : Entry L} (h : e.isSideline) : e.isEarly :=
  isEarly_of_not_isPoll (not_isPoll_of_isSideline h)

end Entry

namespace Merge

/-! ## What an attempt is answered -/

/-- No inlet keeps an end or a failure. -/
def Tidy (m : Merge L u) : Prop := ∀ (p : InletId) (q : Inlet u), m.inlets[p]? = some q → q.hasTerminal = false

/-- No source has brought its end or a failure. -/
structure Quiet (m m' : Merge L u) : Prop where
  tidy : m'.Tidy
  early : Extends Entry.isEarly m m'

/-- The source of `p` has brought its end or a failure `a` by the answer `r`, which is the last entry and the only one
of its kind; `q` is its inlet. -/
structure Concludes (m : Merge L u) (p : InletId) (q : Inlet u) (a : Arrival α) (r : Reply α) (m' : Merge L u) :
    Prop where
  here : m'.inlets[p]? = some q
  buffer : q.buffer = some a
  answer : Arrival.ofReply? r = some a
  isTerminal : a.isTerminal = true
  others : ∀ (k : InletId) (q' : Inlet u), k ≠ p → m'.inlets[k]? = some q' → q'.hasTerminal = false
  history : ∃ reads, m'.history = m.history ++ reads ++ [.polled p r] ∧ ∀ e ∈ reads, e.isEarly

section
variable {m m' m'' : Merge L u} {p : InletId} {q : Inlet u} {a : Arrival α} {r : Reply α}

theorem Quiet.refl (h : m.Tidy) : Quiet m m := ⟨h, .refl m⟩

theorem Quiet.trans (h : Quiet m m') (h' : Quiet m' m'') : Quiet m m'' := ⟨h'.tidy, h.early.trans h'.early⟩

theorem Quiet.concludes (h : Quiet m m') (h' : Concludes m' p q a r m'') : Concludes m p q a r m'' := by
  obtain ⟨es, hes, hok⟩ := h.early
  obtain ⟨reads, hh, hearly⟩ := h'.history
  refine ⟨h'.here, h'.buffer, h'.answer, h'.isTerminal, h'.others, es ++ reads,
    by rw [hh, hes, List.append_assoc m.history], fun e he => ?_⟩
  rcases List.mem_append.1 he with he | he
  · exact hok e he
  · exact hearly e he

/-- The inlet that has concluded keeps an end or a failure. -/
theorem Concludes.hasTerminal (h : Concludes m p q a r m') : m'.inletIs p (·.hasTerminal) = true :=
  inletIs_iff.2 ⟨q, h.here, Inlet.hasTerminal_iff.2 ⟨a, h.buffer, h.isTerminal⟩⟩

/-- After a poll nothing is kept that ends an inlet, or it has just been brought. -/
theorem Tidy.fill (h : m.Tidy) (p : InletId) :
    Quiet m (m.fill p) ∨ ∃ q a r, Concludes m p q a r (m.fill p) := by
  rcases fill_cases m p with hf | ⟨q, s, hf⟩
  · rw [hf]
    exact Or.inl (.refl h)
  · have hhere : (m.fill p).inlets[p]? = some (q.store (u.poll s)) := by
      rw [hf.inlets, List.getElem?_set_self (List.getElem?_eq_some_iff.1 hf.here).1]
    have hothers : ∀ (k : InletId) (q' : Inlet u), k ≠ p → (m.fill p).inlets[k]? = some q' →
        q'.hasTerminal = false := by
      intro k q' hk hq'
      rw [getElem?_fill_of_ne (Ne.symm hk)] at hq'
      exact h k q' hq'
    have hcalls : ∀ e ∈ (List.replicate (u.poll s).cancels (.called p) : List (Entry L)), e.isEarly := by
      intro e he
      rw [List.eq_of_mem_replicate he]
      trivial
    have hterm := Account.hasTerminal_store hf.empty (u.poll s)
    cases hl : (u.poll s).reply.isLast with
    | false =>
      rw [← Reply.isLast_eq, hl] at hterm
      refine Or.inl ⟨fun k q' hq' => ?_, _, hf.history, fun e he => ?_⟩
      · by_cases hk : k = p
        · subst hk
          rw [← Option.some.inj (hhere.symm.trans hq')]
          exact hterm
        · exact hothers k q' hk hq'
      · rcases List.mem_append.1 he with he | he
        · exact hcalls e he
        · rw [List.mem_singleton.1 he]
          exact hl
    | true =>
      obtain ⟨a, ha, ht⟩ := Reply.isLast_iff.1 hl
      refine Or.inr ⟨_, a, (u.poll s).reply, hhere, ?_, ha, ht, hothers, _, ?_, hcalls⟩
      · rw [Inlet.buffer_store hf.empty, ha]
      · rw [hf.history, List.append_assoc]

/-- Polling inlets in turn stops where an end or a failure is brought. -/
theorem Tidy.fillUntil {test : Inlet u → Bool} (htest : ∀ q : Inlet u, q.hasTerminal = true → test q = true) :
    ∀ (ps : List InletId) {m : Merge L u}, m.Tidy → Quiet m (fillUntil test ps m).2 ∨
      ∃ p q a r, (Merge.fillUntil test ps m).1 = some p ∧ Concludes m p q a r (Merge.fillUntil test ps m).2
  | [], _, h => Or.inl (.refl h)
  | p :: ps, m, h => by
    rw [fillUntil_cons]
    rcases h.fill p with hq | ⟨q, a, r, hc⟩
    · split
      · exact Or.inl hq
      · rcases Tidy.fillUntil htest ps hq.tidy with hq' | ⟨k, q, a, r, hk, hc⟩
        · exact Or.inl (hq.trans hq')
        · exact Or.inr ⟨k, q, a, r, hk, hq.concludes hc⟩
    · obtain ⟨q', hq', ht⟩ := inletIs_iff.1 hc.hasTerminal
      rw [if_pos (inletIs_iff.2 ⟨q', hq', htest q' ht⟩)]
      exact Or.inr ⟨p, q, a, r, rfl, hc⟩

theorem isSome_of_hasTerminal (q : Inlet u) (h : q.hasTerminal = true) : q.buffer.isSome = true := by
  obtain ⟨a, ha, -⟩ := Inlet.hasTerminal_iff.1 h
  rw [ha]
  rfl

/-- **An attempt reads an end or a failure only to find it.** -/
theorem Tidy.seek (h : m.Tidy) (order : List InletId) : Quiet m (m.seek order).2 ∨
    ∃ p q a r, (m.seek order).1 = some p ∧ Concludes m p q a r (m.seek order).2 := by
  unfold Merge.seek
  split
  · exact Or.inl (.refl h)
  · split
    · exact Or.inl (.refl h)
    · have hby := h.fillUntil (fun _ => id) (m.bystanders order)
      split
      · rename_i k m₁ hf
        rw [hf] at hby
        exact hby
      · rename_i m₁ hf
        rw [hf] at hby
        rcases hby with hq | ⟨k, q, a, r, hk, -⟩
        · rcases hq.tidy.fillUntil isSome_of_hasTerminal order with hq' | ⟨k, q, a, r, hk, hc⟩
          · exact Or.inl (hq.trans hq')
          · exact Or.inr ⟨k, q, a, r, hk, hq.concludes hc⟩
        · cases hk

end

/-! ## What a step writes -/

/-- Handling the event `a` of `p` from `m` on writes nothing about an end or a failure if `a` is an element; otherwise
the answer that brought it comes first, and right after it that the source is given up and the event taken up. -/
inductive Answered (m : Merge L u) (p : InletId) (a : Arrival α) (m' : Merge L u) : Prop
  | element : a.isTerminal = false → Extends Entry.isEarly m m' → Answered m p a m'
  | last (r : Reply α) (choice : Choice) (reads after : List (Entry L)) : Arrival.ofReply? r = some a →
      a.isTerminal = true →
      m'.history = m.history ++ reads ++ .polled p r :: .dropped p :: .arrived choice p a :: after →
      (∀ e ∈ reads, e.isEarly) → (∀ e ∈ after, ¬ e.isPoll) → Answered m p a m'

section
variable {m m' : Merge L u}

/-- An attempt in vain brings neither an end nor a failure. -/
theorem Tidy.waits (h : m.Tidy) {order : List InletId} (hn : (m.seek order).1 = none) :
    Quiet m (m.seek order).2 := by
  rcases h.seek order with hq | ⟨p, q, a, r, hp, -⟩
  · exact hq
  · rw [hn] at hp
    cases hp

theorem tidy_putInlet {p : InletId} {q : Inlet u} {a : Arrival α} (ha : q.buffer = some a)
    (hothers : ∀ (k : InletId) (q' : Inlet u), k ≠ p → m.inlets[k]? = some q' → q'.hasTerminal = false) :
    (m.putInlet p q.take.2).Tidy := by
  intro k q' hq'
  rw [inlets_putInlet, List.getElem?_set] at hq'
  by_cases hk : p = k
  · rw [if_pos hk] at hq'
    split at hq'
    · obtain rfl := Option.some.inj hq'
      unfold Inlet.hasTerminal
      rw [Inlet.buffer_take ha]
      rfl
    · cases hq'
  · rw [if_neg hk] at hq'
    exact hothers k q' (Ne.symm hk) hq'

/-- Released inlets keep nothing. -/
theorem Tidy.released (h : m.Tidy) (hi : ∀ k : InletId, m'.inlets[k]? = m.inlets[k]? ∨
    m'.inlets[k]? = m.inlets[k]?.map (·.release.2)) : m'.Tidy := by
  intro k q' hq'
  rcases hi k with hk | hk
  · exact h k q' (hk ▸ hq')
  · rw [hk] at hq'
    obtain ⟨q, -, rfl⟩ := Option.map_eq_some_iff.1 hq'
    rfl

theorem not_isPoll_after (m : Merge L u) (p : InletId) (a : Arrival α) (next : L.State) {rs : List (Entry L)}
    (hrs : ∀ e ∈ rs, e.isOutcome) : ∀ e ∈ (m.handling p a next).toList ++ rs, ¬ e.isPoll := by
  intro e he
  rcases List.mem_append.1 he with he | he
  · exact Entry.not_isPoll_of_isCall (isCall_handling he)
  · exact Entry.not_isPoll_of_isOutcome (hrs e he)

/-- **What is found is answered for.** -/
theorem Tidy.accepts (h : m.Tidy) (hb : m.Balanced) {p : InletId} {a : Arrival α} (hacc : Accepts m p a m') :
    m'.Tidy ∧ Answered m p a m' := by
  obtain ⟨choice, order, q, -, hp, hq, ha⟩ := hacc
  obtain ⟨rs, hh, hout, -⟩ := history_dispatch ((m.seek order).2.putInlet p q.take.2) choice p a
  have hafter := not_isPoll_after ((m.seek order).2.putInlet p q.take.2) p a
    (((m.seek order).2.putInlet p q.take.2).transition p a).next hout
  have hinlets := inlet_dispatch ((m.seek order).2.putInlet p q.take.2) choice p a
  rw [history_putInlet_of_some hq] at hh
  rcases h.seek order with hquiet | ⟨k, q', a', r, hk, hc⟩
  · have ht : a.isTerminal = false := by
      have := hquiet.tidy p q hq
      unfold Inlet.hasTerminal at this
      rw [ha] at this
      exact this
    refine ⟨(tidy_putInlet ha fun k q' _ => hquiet.tidy k q').released hinlets, .element ht ?_⟩
    rw [List.append_assoc] at hh
    refine hquiet.early.trans ⟨_, hh, fun e he => ?_⟩
    rcases List.mem_append.1 he with he | he
    · split at he
      · rw [List.mem_singleton.1 he]
        trivial
      · cases he
    · rcases List.mem_cons.1 he with rfl | he
      · trivial
      · exact Entry.isEarly_of_not_isPoll (hafter e he)
  · obtain rfl := Option.some.inj (hk.symm.trans hp)
    obtain rfl := Option.some.inj (hc.here.symm.trans hq)
    obtain rfl := Option.some.inj (hc.buffer.symm.trans ha)
    obtain ⟨reads, hreads, hearly⟩ := hc.history
    have hsound := (hb.acts (works_seek m order).acts k q' hq).sound
    have hsome : q'.source.isSome = true := by
      have ho : q'.isOpen = true := hsound.isOpen_of_buffer (by
        show q'.buffer.isSome = true
        rw [ha]
        rfl)
      exact hsound.source_isSome.trans ho
    have hnone : q'.take.2.source = none := Inlet.source_take_terminal ha hc.isTerminal
    refine ⟨(tidy_putInlet ha hc.others).released hinlets, .last r choice reads _ hc.answer hc.isTerminal ?_ hearly
      hafter⟩
    rw [hh, hreads, hsome, hnone]
    simp

theorem Step.early_or_accepts (h : Step m m') (hm : m.Tidy) :
    Extends Entry.isEarly m m' ∨ ∃ p a, Accepts m p a m' := by
  rcases h.aside_or_tries with ha | htry
  · exact Or.inl (ha.history.mono fun _ => Entry.isEarly_of_isSideline)
  · cases htry with
    | waits choice order _ hn => exact Or.inl (hm.waits hn).early
    | accepts choice order p a q hst hp hq ha => exact Or.inr ⟨p, a, .found choice order q hst hp hq ha⟩

/-- The answers of sources that a change brings are early ones, but for those to an event that it accepts. -/
theorem Change.early_or_accepts (h : Change m m') (hm : m.Tidy) :
    Extends Entry.isEarly m m' ∨ ∃ p a, Accepts m p a m' := by
  cases h with
  | step => exact (step_spec m).early_or_accepts hm
  | abandon => exact Or.inl ((extends_releaseAll m).mono fun e ⟨p, he⟩ => he ▸ trivial)
  | _ => exact Or.inl (.of_eq rfl)

theorem Fresh.tidy {sources : List u.State} (h : Fresh m sources) : m.Tidy := by
  intro p q hq
  rw [h.inlets, List.getElem?_map] at hq
  obtain ⟨s, -, rfl⟩ := Option.map_eq_some_iff.1 hq
  rfl

/-- A step keeps the merge tidy. -/
theorem Step.tidy (h : Step m m') (hm : m.Tidy) (hb : m.Balanced) : m'.Tidy := by
  cases h with
  | delivers closing y _ _ _ hr =>
    intro p q hq
    rw [(delivered_spec closing y hr).inlets] at hq
    exact hm p q hq
  | tries m' _ _ ht =>
    cases ht with
    | waits choice order _ hn => exact (hm.waits hn).tidy
    | accepts choice order p a q hst hp hq ha => exact (hm.accepts hb (.found choice order q hst hp hq ha)).1
  | ends m₁ v h =>
    refine hm.released fun k => Or.inr ?_
    rw [(finish_spec m₁ v).inlet, h.inlets]
  | _ => exact hm

theorem Change.tidy (h : Change m m') (hm : m.Tidy) (hb : m.Balanced) : m'.Tidy := by
  cases h with
  | step => exact (step_spec m).tidy hm hb
  | rouse => exact hm
  | relink => exact hm
  | adjust p q s s' hq =>
    intro k q' hq'
    rw [List.getElem?_set] at hq'
    by_cases hk : p = k
    · subst hk
      rw [if_pos rfl, if_pos (List.getElem?_eq_some_iff.1 hq).1] at hq'
      rw [← Option.some.inj hq']
      exact hm p q hq
    · rw [if_neg hk] at hq'
      exact hm k q' hq'
  | abandon => exact hm.released fun k => Or.inr (getElem?_releaseAll m k)

end

end Merge
end StreamMerge
