import StreamMerge.Proofs.Answers
import StreamMerge.Proofs.Bypass
import StreamMerge.Proofs.Waiting
import StreamMerge.Strategy.Alternate

/-!
# The discipline of an attempt

Which inlets an attempt polls, and what it finds, follows from what the inlets keep when it begins and from what their
sources would answer then: each inlet is visited once at most, so that visiting one does not change what another one
brings. `Merge.Finds` states the order of events in these terms, `Merge.Attempted` adds what becomes of the inlets, and
every attempt of every run is of this kind (`Session.play_disciplined`).
-/
namespace StreamMerge

variable {α β : Type} {L : Strategy α β} {u : Source α}

theorem Inlet.buffer_fill (q : Inlet u) :
    q.fill.2.buffer = q.buffer.or (q.fill.1.bind fun r => Arrival.ofReply? r.reply) := by
  rcases q.fill_cases with h | ⟨s, hb, hs, h⟩
  · simp [h]
  · rw [h, hb]
    exact Inlet.buffer_store hb _

theorem Inlet.fill_of_buffer {q : Inlet u} {a : Arrival α} (h : q.buffer = some a) : q.fill = (none, q) := by
  unfold Inlet.fill
  rw [h]

/-- Taking something from an inlet gives the source up exactly if it is the end or a failure. -/
theorem Inlet.Sound.givesUp {q : Inlet u} {a : Arrival α} (h : q.Sound) (ha : q.buffer = some a) :
    (q.source.isSome && q.take.2.source.isNone) = a.isTerminal := by
  have hsome : q.source.isSome = true := by
    rw [h.source_isSome]
    exact h.isOpen_of_buffer (by rw [ha]; rfl)
  rw [hsome, Bool.true_and]
  cases a with
  | element x =>
    rw [Inlet.take_element ha]
    simpa [Arrival.isTerminal] using hsome
  | _ =>
    rw [Inlet.source_take_terminal ha rfl]
    rfl

namespace Merge

/-! ## What a visit brings -/

/-- What the source of `p` answers when the inlet is filled. It is not asked if the inlet keeps something, or has given
its source up. -/
def answer? (m : Merge L u) (p : InletId) : Option (Polled α u.State) := m.inlets[p]?.bind (·.fill.1)

/-- What filling the inlet `p` brings to it. -/
def brings? (m : Merge L u) (p : InletId) : Option (Arrival α) :=
  (m.answer? p).bind fun r => Arrival.ofReply? r.reply

/-- Filling the inlet `p` brings its end or its failure. -/
def concludes (m : Merge L u) (p : InletId) : Bool := (m.brings? p).any (·.isTerminal)

/-- What filling the inlet `p` writes. -/
def traces (m : Merge L u) (p : InletId) : List (Entry L) :=
  match m.answer? p with
  | none => []
  | some r => List.replicate r.cancels (.called p) ++ [.polled p r.reply]

section
variable {m m' : Merge L u} {p k : InletId} {a : Arrival α}

theorem fill_spec (m : Merge L u) (p : InletId) :
    (m.fill p).inlets[p]? = m.inlets[p]?.map (·.fill.2) ∧ (m.fill p).history = m.history ++ m.traces p := by
  unfold traces answer?
  cases hq : m.inlets[p]? with
  | none =>
    have hf : m.fill p = m := by
      unfold fill
      rw [hq]
    rw [hf, hq]
    simp
  | some q =>
    rcases q.fill_cases with h | ⟨s, hb, hs, h⟩
    · have hf : m.fill p = m := by
        unfold fill
        rw [hq]
        dsimp only
        rw [h]
      rw [hf, hq]
      simp [h]
    · have hpolls := fill_polls hq hb hs
      rw [hpolls.inlets, hpolls.history, List.getElem?_set_self (List.getElem?_eq_some_iff.1 hq).1]
      simp [h]

theorem buffer?_fill (m : Merge L u) (p : InletId) : (m.fill p).buffer? p = (m.buffer? p).or (m.brings? p) := by
  unfold buffer? brings? answer?
  rw [(fill_spec m p).1]
  cases m.inlets[p]? with
  | none => rfl
  | some q => exact q.buffer_fill

/-- What an inlet brings and what it writes are its own affair. -/
theorem answer?_congr (h : m'.inlets[p]? = m.inlets[p]?) : m'.answer? p = m.answer? p := by
  unfold answer?
  rw [h]

theorem inletIs_fill_congr (h : m'.inlets[p]? = m.inlets[p]?) (test : Inlet u → Bool) :
    (m'.fill p).inletIs p test = (m.fill p).inletIs p test := by
  unfold inletIs
  rw [(fill_spec m' p).1, (fill_spec m p).1, h]

/-- An inlet that keeps something is not asked. -/
theorem brings?_of_buffer (h : m.buffer? p = some a) : m.brings? p = none := by
  obtain ⟨q, hq, hb⟩ := Option.bind_eq_some_iff.1 h
  unfold brings? answer?
  rw [hq]
  simp [Inlet.fill_of_buffer hb]

theorem Tidy.buffer (h : m.Tidy) (hb : m.buffer? p = some a) : a.isTerminal = false := by
  obtain ⟨q, hq, hb⟩ := Option.bind_eq_some_iff.1 hb
  have hnot := h p q hq
  rw [Inlet.hasTerminal, hb] at hnot
  exact hnot

/-- In a tidy merge, an inlet has an end or a failure after a visit exactly if the visit brought it. -/
theorem Tidy.hasTerminal_fill (h : m.Tidy) (p : InletId) :
    (m.fill p).inletIs p (·.hasTerminal) = m.concludes p := by
  rw [inletIs_hasTerminal, buffer?_fill, concludes]
  cases hb : m.buffer? p with
  | none => rfl
  | some a =>
    rw [brings?_of_buffer hb]
    simp [h.buffer hb]

theorem isSome_fill (h : m.buffer? p = none) :
    (m.fill p).inletIs p (·.buffer.isSome) = (m.brings? p).isSome := by
  rw [inletIs_isSome, buffer?_fill, h, Option.none_or]

/-- An open inlet that keeps nothing is asked. -/
theorem Balanced.asks (hb : m.Balanced) (ho : m.inletIs p (·.isOpen) = true) :
    (m.answer? p).isSome = (m.buffer? p).isNone := by
  obtain ⟨q, hq, ho⟩ := inletIs_iff.1 ho
  have hs : q.source.isSome = q.isOpen := (hb p q hq).sound.source_isSome
  rw [ho] at hs
  obtain ⟨s, hs⟩ := Option.isSome_iff_exists.1 hs
  unfold answer? buffer?
  rw [hq]
  show q.fill.1.isSome = q.buffer.isNone
  unfold Inlet.fill
  rw [hs]
  cases q.buffer <;> rfl

end

/-! ## Visiting inlets in turn -/

/-- Fills inlets one after another. -/
def visit (m : Merge L u) (ps : List InletId) : Merge L u := ps.foldl fill m

section
variable {m : Merge L u}

theorem getElem?_visit (k : InletId) : ∀ {ps : List InletId} (m : Merge L u), ps.Nodup →
    (m.visit ps).inlets[k]? = if k ∈ ps then m.inlets[k]?.map (·.fill.2) else m.inlets[k]?
  | [], m, _ => by simp [visit]
  | p :: ps, m, h => by
    obtain ⟨hp, hps⟩ := List.nodup_cons.1 h
    have ih := getElem?_visit k (m.fill p) hps
    show ((m.fill p).visit ps).inlets[k]? = _
    rw [ih]
    by_cases hk : p = k
    · subst hk
      rw [if_neg hp, if_pos List.mem_cons_self, (fill_spec m p).1]
    · rw [getElem?_fill_of_ne hk]
      simp [Ne.symm hk]

/-- Visits write what each of them would have written alone. -/
theorem history_visit : ∀ {ps : List InletId} (m : Merge L u), ps.Nodup →
    (m.visit ps).history = m.history ++ ps.flatMap m.traces
  | [], m, _ => by simp [visit]
  | p :: ps, m, h => by
    obtain ⟨hp, hps⟩ := List.nodup_cons.1 h
    have hrest : ps.flatMap (m.fill p).traces = ps.flatMap m.traces := by
      refine List.flatMap_congr fun r hr => ?_
      have hne : p ≠ r := fun he => hp (he ▸ hr)
      unfold traces
      rw [answer?_congr (getElem?_fill_of_ne hne)]
    show ((m.fill p).visit ps).history = _
    rw [history_visit (m.fill p) hps, (fill_spec m p).2, hrest, List.flatMap_cons, List.append_assoc]

/-- Polling in turn visits the inlets up to the first that then passes the test. -/
theorem fillUntil_visits (test : Inlet u → Bool) : ∀ {ps : List InletId} (m : Merge L u), ps.Nodup →
    (∃ pre p post, ps = pre ++ p :: post ∧ (∀ r ∈ pre, (m.fill r).inletIs r test = false) ∧
      (m.fill p).inletIs p test = true ∧ fillUntil test ps m = (some p, m.visit (pre ++ [p]))) ∨
    ((∀ r ∈ ps, (m.fill r).inletIs r test = false) ∧ fillUntil test ps m = (none, m.visit ps))
  | [], m, _ => Or.inr ⟨by simp, rfl⟩
  | p :: ps, m, h => by
    obtain ⟨hp, hps⟩ := List.nodup_cons.1 h
    rw [fillUntil_cons]
    by_cases ht : (m.fill p).inletIs p test = true
    · rw [if_pos ht]
      exact Or.inl ⟨[], p, ps, rfl, by simp, ht, rfl⟩
    · have hsame : ∀ r ∈ ps, ((m.fill p).fill r).inletIs r test = (m.fill r).inletIs r test := by
        intro r hr
        have hne : p ≠ r := fun he => hp (he ▸ hr)
        exact inletIs_fill_congr (getElem?_fill_of_ne hne) test
      have hfirst := eq_false_of_ne_true ht
      rw [if_neg ht]
      rcases fillUntil_visits test (m.fill p) hps with ⟨pre, k, post, rfl, hpre, hk, hf⟩ | ⟨hnone, hf⟩
      · refine Or.inl ⟨p :: pre, k, post, rfl, ?_, ?_, hf⟩
        · intro r hr
          rcases List.mem_cons.1 hr with rfl | hr
          · exact hfirst
          · rw [← hsame r (by simp [hr])]
            exact hpre r hr
        · rw [← hsame k (by simp)]
          exact hk
      · refine Or.inr ⟨?_, hf⟩
        intro r hr
        rcases List.mem_cons.1 hr with rfl | hr
        · exact hfirst
        · rw [← hsame r hr]
          exact hnone r hr

end

/-! ## What an attempt finds -/

/-- How an attempt on the inlets `order` of `m` goes: the inlets it visits, in order, and the event it finds. -/
inductive Finds (m : Merge L u) (order : List InletId) : List InletId → Option (InletId × Arrival α) → Prop
  /-- The first named inlet that keeps an element is served, and none is visited. -/
  | kept (pre post : List InletId) (p : InletId) (x : α) : order = pre ++ p :: post →
      (∀ r ∈ pre, m.buffer? r = none) → m.buffer? p = some (.element x) → Finds m order [] (some (p, .element x))
  /-- If none keeps anything, the bystanders are visited up to the first that brings its end or its failure. -/
  | concluded (pre post : List InletId) (p : InletId) (a : Arrival α) : (∀ r ∈ order, m.buffer? r = none) →
      m.bystanders order = pre ++ p :: post → (∀ r ∈ pre, m.concludes r = false) → m.brings? p = some a →
      a.isTerminal = true → Finds m order (pre ++ [p]) (some (p, a))
  /-- If none of them does, the named inlets are visited up to the first that brings anything. -/
  | answered (pre post : List InletId) (p : InletId) (a : Arrival α) : (∀ r ∈ order, m.buffer? r = none) →
      (∀ r ∈ m.bystanders order, m.concludes r = false) → order = pre ++ p :: post →
      (∀ r ∈ pre, m.brings? r = none) → m.brings? p = some a →
      Finds m order (m.bystanders order ++ (pre ++ [p])) (some (p, a))
  /-- Otherwise nothing is found. -/
  | vain : (∀ r ∈ order, m.buffer? r = none) → (∀ r ∈ m.bystanders order, m.concludes r = false) →
      (∀ r ∈ order, m.brings? r = none) → Finds m order (m.bystanders order ++ order) none

section
variable {m : Merge L u} {order visited : List InletId} {event : Option (InletId × Arrival α)}

theorem mem_bystanders {p : InletId} :
    p ∈ m.bystanders order ↔ m.inletIs p (·.isOpen) = true ∧ p ∉ order := by
  unfold bystanders inletIds
  rw [List.mem_filter, List.mem_range, Bool.and_eq_true, decide_eq_true_eq]
  constructor
  · exact And.right
  · intro h
    exact ⟨lt_of_isOpen h.1, h⟩

theorem nodup_bystanders (m : Merge L u) (order : List InletId) : (m.bystanders order).Nodup :=
  List.nodup_range.filter _

theorem nodup_bystanders_append (m : Merge L u) {ps : List InletId} (h : ps.Nodup) (hps : ∀ r ∈ ps, r ∈ order) :
    (m.bystanders order ++ ps).Nodup := by
  refine List.nodup_append.2 ⟨nodup_bystanders m order, h, ?_⟩
  rintro p hp r hr rfl
  exact (mem_bystanders.1 hp).2 (hps p hr)

theorem Finds.nodup (h : Finds m order visited event) (hnd : order.Nodup) : visited.Nodup := by
  cases h with
  | kept => exact List.nodup_nil
  | concluded pre post p a _ hby =>
    have hby' := nodup_bystanders m order
    rw [hby, List.append_cons] at hby'
    exact (List.nodup_append.1 hby').1
  | answered pre post p a _ _ horder =>
    subst horder
    refine nodup_bystanders_append m ?_ ?_
    · rw [List.append_cons] at hnd
      exact (List.nodup_append.1 hnd).1
    · intro r hr
      simp only [List.mem_append, List.mem_cons, List.not_mem_nil, or_false] at hr ⊢
      tauto
  | vain => exact nodup_bystanders_append m hnd fun _ => id

/-- Only open inlets are visited. -/
theorem Finds.isOpen (h : Finds m order visited event) (ho : ∀ r ∈ order, m.inletIs r (·.isOpen) = true) :
    ∀ r ∈ visited, m.inletIs r (·.isOpen) = true := by
  intro r hr
  cases h with
  | kept => cases hr
  | concluded pre post p a _ hby =>
    have hmem : r ∈ m.bystanders order := by
      rw [hby]
      simp only [List.mem_append, List.mem_cons, List.not_mem_nil, or_false] at hr ⊢
      tauto
    exact (mem_bystanders.1 hmem).1
  | answered pre post p a _ _ horder =>
    rcases List.mem_append.1 hr with hr | hr
    · exact (mem_bystanders.1 hr).1
    · refine ho r ?_
      rw [horder]
      simp only [List.mem_append, List.mem_cons, List.not_mem_nil, or_false] at hr ⊢
      tauto
  | vain =>
    rcases List.mem_append.1 hr with hr | hr
    · exact (mem_bystanders.1 hr).1
    · exact ho r hr

/-- What is found is kept by its inlet after the visits. -/
theorem Finds.buffer (h : Finds m order visited event) (hnd : order.Nodup) {p : InletId} {a : Arrival α}
    (he : event = some (p, a)) : (m.visit visited).buffer? p = some a := by
  have hvisit : p ∈ visited → (m.visit visited).buffer? p = (m.fill p).buffer? p := by
    intro hp
    unfold buffer?
    rw [getElem?_visit p m (h.nodup hnd), if_pos hp, (fill_spec m p).1]
  cases h with
  | kept pre post k x _ _ hk =>
    obtain ⟨rfl, rfl⟩ := Prod.mk.inj (Option.some.inj he)
    exact hk
  | concluded pre post k b _ hby _ hk ht =>
    obtain ⟨rfl, rfl⟩ := Prod.mk.inj (Option.some.inj he)
    rw [hvisit (by simp), buffer?_fill]
    cases hb : m.buffer? k with
    | none => exact hk
    | some c =>
      rw [brings?_of_buffer hb] at hk
      cases hk
  | answered pre post k b hkept _ horder _ hk =>
    obtain ⟨rfl, rfl⟩ := Prod.mk.inj (Option.some.inj he)
    rw [hvisit (by simp), buffer?_fill, hkept k (by simp [horder])]
    exact hk
  | vain => cases he

/-- No end and no failure is ever left for the second look at the inlets. -/
theorem Tidy.find?_hasTerminal (h : m.Tidy) :
    m.inletIds.find? (m.inletIs · fun q => q.isOpen && q.hasTerminal) = none := by
  refine List.find?_eq_none.2 fun p _ ht => ?_
  obtain ⟨q, hq, ht⟩ := inletIs_iff.1 ht
  rw [h p q hq, Bool.and_false] at ht
  cases ht

/-- **The order of events.** What seeking finds in a tidy merge, and which inlets it visits for that. -/
theorem Tidy.seek_finds (h : m.Tidy) (hnd : order.Nodup) :
    ∃ visited event, Finds m order visited event ∧ m.seek order = (event.map Prod.fst, m.visit visited) := by
  -- of a named inlet that keeps no element, a tidy merge keeps nothing
  have hempty : ∀ r, m.inletIs r (·.hasElement) = false → m.buffer? r = none := by
    intro r hr
    rw [inletIs_hasElement] at hr
    cases hb : m.buffer? r with
    | none => rfl
    | some a =>
      rw [hb] at hr
      simp [h.buffer hb] at hr
  unfold Merge.seek
  cases hkept : order.find? (m.inletIs · (·.hasElement)) with
  | some p =>
    obtain ⟨hp, pre, post, horder, hpre⟩ := List.find?_eq_some_iff_append.1 hkept
    obtain ⟨q, hq, hel⟩ := inletIs_iff.1 hp
    obtain ⟨x, hx⟩ := Inlet.hasElement_iff.1 hel
    refine ⟨[], some (p, .element x), .kept pre post p x horder ?_ ?_, rfl⟩
    · intro r hr
      exact hempty r (by simpa using hpre r hr)
    · rw [buffer?, hq]
      exact hx
  | none =>
    have hnone : ∀ r ∈ order, m.buffer? r = none := by
      intro r hr
      exact hempty r (by simpa using List.find?_eq_none.1 hkept r hr)
    simp only [h.find?_hasTerminal]
    rcases fillUntil_visits (·.hasTerminal) m (nodup_bystanders m order) with
      ⟨pre, p, post, hby, hpre, hp, hf⟩ | ⟨hby, hf⟩
    · rw [h.hasTerminal_fill] at hp
      obtain ⟨a, ha, ht⟩ := (Option.any_eq_true _ _).1 hp
      refine ⟨pre ++ [p], some (p, a), .concluded pre post p a hnone hby ?_ ha ht, by rw [hf]; rfl⟩
      intro r hr
      rw [← h.hasTerminal_fill]
      exact hpre r hr
    · have hsilent : ∀ r ∈ m.bystanders order, m.concludes r = false := by
        intro r hr
        rw [← h.hasTerminal_fill]
        exact hby r hr
      -- the named inlets are as they were before the bystanders were visited
      have hsame : ∀ r ∈ order, ((m.visit (m.bystanders order)).fill r).inletIs r (·.buffer.isSome) =
          (m.brings? r).isSome := by
        intro r hr
        have hnot : r ∉ m.bystanders order := fun hmem => (mem_bystanders.1 hmem).2 hr
        have hhere := getElem?_visit r m (nodup_bystanders m order)
        rw [if_neg hnot] at hhere
        rw [inletIs_fill_congr hhere, isSome_fill (hnone r hr)]
      rw [hf]
      dsimp only
      rcases fillUntil_visits (·.buffer.isSome) (m.visit (m.bystanders order)) hnd with
        ⟨pre, p, post, horder, hpre, hp, hf'⟩ | ⟨hall, hf'⟩
      · rw [hsame p (by simp [horder])] at hp
        obtain ⟨a, ha⟩ := Option.isSome_iff_exists.1 hp
        refine ⟨_, some (p, a), .answered pre post p a hnone hsilent horder ?_ ha, ?_⟩
        · intro r hr
          have hr' := hpre r hr
          rw [hsame r (by simp [horder, hr])] at hr'
          simpa using hr'
        · rw [hf', visit, visit, ← List.foldl_append]
          rfl
      · refine ⟨_, none, .vain hnone hsilent ?_, ?_⟩
        · intro r hr
          have hr' := hall r hr
          rw [hsame r hr] at hr'
          simpa using hr'
        · rw [hf', visit, visit, ← List.foldl_append]
          rfl

end

/-! ## The attempt as a whole -/

/-- An attempt on the inlets `order` leads from `m` to `m'`: it visits the inlets `visited` in this order and takes the
event it finds. -/
structure Attempted (m : Merge L u) (order visited : List InletId) (event : Option (InletId × Arrival α))
    (m' : Merge L u) : Prop where
  finds : Finds m order visited event
  /-- No inlet is visited twice. -/
  nodup : visited.Nodup
  /-- Of the inlets that are visited, those that keep nothing are polled, and no others are. -/
  polls : ∃ reads, m'.history = m.history ++ reads ∧
    (reads.filterMap Entry.reading?).map Prod.fst = visited.filter fun r => (m.buffer? r).isNone
  /-- It writes what each visit writes, and at last that the source of an inlet that has ended is given up. -/
  history : m'.history = m.history ++ visited.flatMap m.traces ++
    (event.toList.flatMap fun e => if e.2.isTerminal then [.dropped e.1] else [])
  served : ∀ p a, event = some (p, a) → m'.inlets[p]? = m.inlets[p]?.map (·.fill.2.take.2)
  filled : ∀ r ∈ visited, event.map Prod.fst ≠ some r → m'.inlets[r]? = m.inlets[r]?.map (·.fill.2)
  /-- An inlet that is neither polled nor served is as it was. -/
  untouched : ∀ r, r ∉ visited ∨ (m.buffer? r).isSome = true → event.map Prod.fst ≠ some r →
    m'.inlets[r]? = m.inlets[r]?

section
variable {m : Merge L u} {order visited : List InletId}

/-- The polls that visits write are those of the inlets that are asked. -/
theorem readings_traces (h : ∀ r ∈ visited, (m.answer? r).isSome = (m.buffer? r).isNone) :
    ((visited.flatMap m.traces).filterMap Entry.reading?).map Prod.fst =
      visited.filter fun r => (m.buffer? r).isNone := by
  induction visited with
  | nil => rfl
  | cons p ps ih =>
    have hhere : ((m.traces p).filterMap Entry.reading?).map Prod.fst =
        if (m.buffer? p).isNone then [p] else [] := by
      rw [← h p List.mem_cons_self]
      unfold traces
      cases m.answer? p with
      | none => rfl
      | some r =>
        have hcalls : (List.replicate r.cancels (.called p)).filterMap (Entry.reading? (L := L)) = [] :=
          List.filterMap_eq_nil_iff.2 fun e he => by rw [List.eq_of_mem_replicate he]; rfl
        rw [List.filterMap_append, hcalls]
        rfl
    rw [List.flatMap_cons, List.filterMap_append, List.map_append, hhere,
      ih fun r hr => h r (List.mem_cons_of_mem p hr), List.filter_cons]
    split <;> simp

/-- Visits leave alone every inlet that is not visited or keeps something. -/
theorem getElem?_visit_of_kept (hnd : visited.Nodup) {r : InletId}
    (hr : r ∉ visited ∨ (m.buffer? r).isSome = true) : (m.visit visited).inlets[r]? = m.inlets[r]? := by
  rw [getElem?_visit r m hnd]
  split
  · rename_i hin
    obtain ⟨a, ha⟩ := Option.isSome_iff_exists.1 (hr.resolve_left (not_not_intro hin))
    obtain ⟨q, hq, ha⟩ := Option.bind_eq_some_iff.1 ha
    rw [hq, Option.map_some, Inlet.fill_of_buffer ha]
  · rfl

/-- An inlet that keeps something after the visits is as if it had been visited: if it was not, it kept that before. -/
theorem map_fill_of_visit (hnd : visited.Nodup) {p : InletId} {q : Inlet u} {a : Arrival α}
    (hq : (m.visit visited).inlets[p]? = some q) (ha : q.buffer = some a) :
    m.inlets[p]?.map (·.fill.2) = some q := by
  rw [getElem?_visit p m hnd] at hq
  by_cases hp : p ∈ visited
  · rw [if_pos hp] at hq
    exact hq
  · rw [if_neg hp] at hq
    rw [hq, Option.map_some, Inlet.fill_of_buffer ha]

/-- **One attempt.** In a tidy and balanced merge, on open inlets of which none is named twice. -/
theorem Tidy.attempted (h : m.Tidy) (hb : m.Balanced) (hnd : order.Nodup)
    (ho : ∀ r ∈ order, m.inletIs r (·.isOpen) = true) :
    ∃ visited, Attempted m order visited (m.attempt order).1 (m.attempt order).2 := by
  obtain ⟨visited, event, hfinds, hseek⟩ := h.seek_finds hnd
  have hvisited := hfinds.nodup hnd
  have hasks : ∀ r ∈ visited, (m.answer? r).isSome = (m.buffer? r).isNone :=
    fun r hr => hb.asks (hfinds.isOpen ho r hr)
  have hhere := fun k => getElem?_visit k m hvisited
  have hhist := history_visit m hvisited
  have hreads := readings_traces hasks
  refine ⟨visited, ?_⟩
  unfold Merge.attempt
  rw [hseek]
  cases hevent : event with
  | none =>
    rw [hevent] at hfinds
    dsimp only [Option.map_none]
    refine ⟨hfinds, hvisited, ⟨_, hhist, hreads⟩, by rw [hhist]; simp, ?_, ?_, ?_⟩
    · intro p a he
      cases he
    · intro r hr _
      rw [hhere, if_pos hr]
    · intro r hr _
      exact getElem?_visit_of_kept hvisited hr
  | some found =>
    obtain ⟨p, a⟩ := found
    obtain ⟨q, hq, ha⟩ := Option.bind_eq_some_iff.1 (hfinds.buffer hnd hevent)
    have hfilled := map_fill_of_visit hvisited hq ha
    have hsound : q.Sound := by
      have hbal := hb.acts (works_seek m order).acts
      rw [hseek] at hbal
      exact (hbal p q hq).sound
    have hgiven : ((m.visit visited).putInlet p q.take.2).history = m.history ++ visited.flatMap m.traces ++
        if a.isTerminal then [.dropped p] else [] := by
      rw [history_putInlet_of_some hq, hsound.givesUp ha, hhist]
    rw [hevent] at hfinds
    dsimp only [Option.map_some]
    rw [takeFrom_of_kept hq ha]
    refine ⟨hfinds, hvisited, ⟨_, by rw [hgiven, List.append_assoc], ?_⟩, by rw [hgiven]; simp, ?_, ?_, ?_⟩
    · have hdropped : (if a.isTerminal then [.dropped p] else []).filterMap (Entry.reading? (L := L)) = [] := by
        split <;> rfl
      rw [List.filterMap_append, hdropped, List.append_nil]
      exact hreads
    · intro k b he
      obtain ⟨rfl, rfl⟩ := Prod.mk.inj (Option.some.inj he)
      have htaken : m.inlets[p]?.map (·.fill.2.take.2) = (m.inlets[p]?.map (·.fill.2)).map (·.take.2) := by
        rw [Option.map_map]
        rfl
      rw [inlets_putInlet, List.getElem?_set_self (List.getElem?_eq_some_iff.1 hq).1, htaken, hfilled]
      rfl
    · intro r hr hne
      have hne : p ≠ r := fun he => hne (congrArg some he)
      rw [inlets_putInlet, List.getElem?_set_ne hne, hhere, if_pos hr]
    · intro r hr hne
      have hne : p ≠ r := fun he => hne (congrArg some he)
      rw [inlets_putInlet, List.getElem?_set_ne hne, getElem?_visit_of_kept hvisited hr]

/-- **After an attempt the merge is tidy again.** -/
theorem Tidy.attempt (h : m.Tidy) (order : List InletId) : (m.attempt order).2.Tidy := by
  rcases attempt_cases m order with ⟨hn, ha⟩ | ⟨p, a, q, hp, hq, hbuf, ha⟩
  · rw [ha]
    exact (h.waits hn).tidy
  · rw [ha]
    rcases h.seek order with hquiet | ⟨k, q', a', r, hk, hc⟩
    · exact tidy_putInlet hbuf fun k q' _ => hquiet.tidy k q'
    · obtain rfl := Option.some.inj (hk.symm.trans hp)
      exact tidy_putInlet hbuf hc.others

end

/-! ## Every attempt -/

/-- The merge keeps no end and no failure of a source, and where it stands before an attempt, the attempt goes in order
and leaves none. -/
structure Disciplined (m : Merge L u) : Prop where
  tidy : m.Tidy
  /-- There is never anything for the second look at the inlets to find. -/
  idle : m.inletIds.find? (m.inletIs · fun q => q.isOpen && q.hasTerminal) = none
  attempts : ∀ choice order, m.stage = .attempting choice order →
    (∃ visited, Attempted m order visited (m.attempt order).1 (m.attempt order).2) ∧ (m.attempt order).2.Tidy

theorem Tidy.disciplined {m : Merge L u} (h : m.Tidy) (hb : m.Balanced) (hc : m.Coherent) : m.Disciplined := by
  refine ⟨h, h.find?_hasTerminal, ?_⟩
  intro choice order hst
  have hfit := hc.fits
  rw [hst] at hfit
  obtain ⟨-, -, -, horder, -⟩ := hfit
  refine ⟨h.attempted hb ?_ ?_, h.attempt order⟩
  · rw [horder]
    exact choice.nodup_readingOrder _ _
  · intro r hr
    rw [horder] at hr
    exact (Choice.mem_readingOrder.1 hr).2

end Merge

namespace Session

/-- **Every attempt goes in order.** For all sources, every strategy and every order of moves, at every point of the
run. -/
theorem play_disciplined {settings : Settings} {sources : List u.State} {m : Merge L u}
    (hm : Merge.setUp L u settings sources = .ok m) (moves : List (Move u)) :
    ((start m).play moves).merge.Disciplined := by
  have htidy : ((start m).play moves).merge.Tidy :=
    Merge.play_invariant hm (Merge.setUp_fresh hm).tidy (fun h hb _ ht => h.tidy ht hb) moves
  exact htidy.disciplined (Merge.play_balanced hm moves) (Merge.play_coherent hm moves)

/-- The inlet that is not named is visited first, and keeps its element. -/
theorem play_disciplined_scripted : ∃ m,
    Merge.setUp (Strategy.alternate Nat) (scripted Nat) .standard [.ofList [1], .ofList [2]] = .ok m ∧
    ((start m).play [.request 2, .poll 4]).merge.Disciplined ∧
    ((start m).play [.request 2, .poll 4]).merge.stage = .attempting (.one 0) [0] ∧
    (((start m).play [.request 2, .poll 4]).merge.attempt [0]).1 = some (0, .element 1) ∧
    (((start m).play [.request 2, .poll 4]).merge.attempt [0]).2.buffer? 1 = some (.element 2) := by
  have hm : Merge.setUp (Strategy.alternate Nat) (scripted Nat) .standard [.ofList [1], .ofList [2]] = .ok _ := rfl
  exact ⟨_, hm, play_disciplined hm [.request 2, .poll 4], rfl, rfl, rfl⟩

end Session
end StreamMerge
