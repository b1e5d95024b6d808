import StreamMerge.Proofs.Gathering
import StreamMerge.Proofs.Pairing

/-!
# Pairing reads no further than it has to

Sources that are lists are read in pairs, the right one first: of an open pairing, everything that was read so far can
be computed from what was handed over (`Merge.Thrifty`). So the left list is read up to the last element that has a
partner if the right list is not the longer one, and otherwise the right list is read one element further than the left
one (`Session.zips_thriftily`).
-/
namespace StreamMerge

open Strategy

variable {α β : Type}

/-! ## Readings -/

section
variable {L : Strategy α β} {u : Source α}

theorem filterMap_element? (xs : List α) : (xs.map Reply.element).filterMap Reply.element? = xs := by
  rw [List.filterMap_map]
  exact List.filterMap_some

namespace Merge

variable {m m' : Merge L u} {p k : InletId}

/-- All polls in order, each with the answer of its source. -/
def readings (m : Merge L u) : List (InletId × Reply α) := m.history.filterMap Entry.reading?

/-- The answers of the source of `p`, in order. -/
def answers (m : Merge L u) (p : InletId) : List (Reply α) := (m.readings.filter (·.1 = p)).map Prod.snd

theorem yielded_eq_answers (m : Merge L u) (p : InletId) : m.yielded p = (m.answers p).filterMap Reply.element? := by
  unfold yielded answers readings
  induction m.history with
  | nil => rfl
  | cons e es ih =>
    cases e with
    | polled q r =>
      by_cases hq : q = p
      · cases r <;> simp_all [Entry.yielded?, Entry.reading?, Reply.element?, List.filterMap_cons]
      · cases r <;> simp_all [Entry.yielded?, Entry.reading?, List.filterMap_cons]
    | _ => simpa [Entry.yielded?, Entry.reading?, List.filterMap_cons] using ih

theorem readings_of_extends (h : Extends (fun e => ¬ e.isPoll) m m') : m'.readings = m.readings :=
  h.filterMap_eq fun _ => Entry.reading?_of_not_isPoll

theorem not_terminal_of_buffer (h : m.buffer? p = none) :
    m.inletIs p (fun q => q.isOpen && q.hasTerminal) = false := by
  unfold buffer? at h
  unfold inletIs
  cases hq : m.inlets[p]? with
  | none => rfl
  | some q =>
    rw [hq] at h
    have hq : q.buffer = none := h
    simp [Inlet.hasTerminal, hq]

theorem pollable_of_live (hb : m.Balanced) (hp : m.status? p = some .live) (hk : m.buffer? p = none) : m.Pollable p := by
  obtain ⟨q, hq, hlive⟩ := Option.map_eq_some_iff.1 hp
  have hs : q.source.isSome = q.isOpen := (hb p q hq).sound.source_isSome
  rw [Inlet.isOpen_iff.2 hlive] at hs
  obtain ⟨s, hs⟩ := Option.isSome_iff_exists.1 hs
  refine ⟨q, s, hq, ?_, hs⟩
  unfold buffer? at hk
  rwa [hq] at hk

/-! ### Filling -/

/-- The inlet `p` was polled, and now keeps the element or the end that its source answered with. -/
inductive Fills (m : Merge L u) (p : InletId) (m' : Merge L u) : Prop
  | element (x : α) : m'.readings = m.readings ++ [(p, .element x)] → m'.buffer? p = some (.element x) → Fills m p m'
  | ended : m'.readings = m.readings ++ [(p, .ended)] → m'.buffer? p = some .completed → Fills m p m'

theorem fills_fill (hp : m.Pollable p) (hplain : ∀ e ∈ (m.fill p).history, e.isPlain) : Fills m p (m.fill p) := by
  obtain ⟨q, s, hq, hb, hs⟩ := hp
  have hpolls := fill_polls hq hb hs
  have hreadings : (m.fill p).readings = m.readings ++ [(p, (u.poll s).reply)] := by
    have hcalls : (List.replicate (u.poll s).cancels (.called p)).filterMap (Entry.reading? (L := L)) = [] :=
      List.filterMap_eq_nil_iff.2 fun e he => by rw [List.eq_of_mem_replicate he]; rfl
    rw [readings, hpolls.history, List.filterMap_append, List.filterMap_append, hcalls]
    rfl
  have hbuffer : (m.fill p).buffer? p = Arrival.ofReply? (u.poll s).reply := by
    rw [buffer?, hpolls.inlets, List.getElem?_set_self (List.getElem?_eq_some_iff.1 hq).1]
    exact Inlet.buffer_store hb _
  have hanswer := hplain (.polled p (u.poll s).reply) (by rw [hpolls.history]; simp)
  cases hr : (u.poll s).reply with
  | element x => exact .element x (hr ▸ hreadings) (by rw [hbuffer, hr]; rfl)
  | ended => exact .ended (hr ▸ hreadings) (by rw [hbuffer, hr]; rfl)
  | pending again =>
    rw [hr] at hanswer
    exact hanswer.elim
  | failed c =>
    rw [hr] at hanswer
    exact hanswer.elim

/-! ### Changes -/

theorem Retains.live {status : Option InletStatus} (h : m.Retains p status)
    (hlive : m.status? p = some .live) : status = some .live := by
  rcases h with h | ⟨-, h⟩
  · rw [← h, hlive]
  · rw [hlive] at h
    obtain ⟨t, -, ht⟩ := Option.map_eq_some_iff.1 h.symm
    cases t <;> cases ht

/-- Nothing is read, and whatever is still open keeps what it kept. -/
structure Idle (m m' : Merge L u) : Prop where
  readings : m'.readings = m.readings
  buffer : ∀ k, m'.status? k = some .live → m'.buffer? k = m.buffer? k

theorem Idle.of_inlets (hr : m'.readings = m.readings) (h : m'.inlets = m.inlets) : Idle m m' :=
  ⟨hr, fun k _ => by unfold buffer?; rw [h]⟩

/-- A released inlet is no longer open. -/
theorem not_live_of_released (h : m'.inlets[k]? = m.inlets[k]?.map (·.release.2)) : m'.status? k ≠ some .live := by
  unfold status?
  rw [h, Option.map_map]
  intro hlive
  obtain ⟨q, -, hq⟩ := Option.map_eq_some_iff.1 hlive
  have hopen : q.release.2.isOpen = true := Inlet.isOpen_iff.2 hq
  rw [Inlet.isOpen_release] at hopen
  cases hopen

theorem Idle.of_released (hr : m'.readings = m.readings)
    (h : ∀ k : InletId, m'.inlets[k]? = m.inlets[k]?.map (·.release.2)) : Idle m m' :=
  ⟨hr, fun k hk => absurd hk (not_live_of_released (h k))⟩

/-- An attempt in vain would have met a source that has nothing yet. -/
theorem Tries.accepts_of_plain (h : Tries m m') (hb : m.Balanced) (hc : m.Coherent)
    (hplain : ∀ e ∈ m'.history, e.isPlain) : ∃ p a, Accepts m p a m' := by
  cases h with
  | waits choice order hst hnone =>
    have hfit := hc.fits
    rw [hst] at hfit
    obtain ⟨-, -, rfl, rfl, hne⟩ := hfit
    obtain ⟨es, p, again, hes⟩ := seek_none (fun r hr => live_of_mem hb _ hr) hne hnone
    refine (hplain (.polled p (.pending again)) ?_).elim
    show _ ∈ (m.seek _).2.history
    rw [hes]
    simp
  | accepts choice order p a q hst hp hq ha => exact ⟨p, a, .found choice order q hst hp hq ha⟩

/-- **Where every answer is there, a change reads nothing, or accepts an event.** -/
theorem Change.idle_or_accepts (h : Change m m') (hb : m.Balanced) (hc : m.Coherent)
    (hplain : ∀ e ∈ m'.history, e.isPlain) : Idle m m' ∨ ∃ p a, Accepts m p a m' := by
  cases h with
  | step =>
    have hstep := step_spec m
    generalize m.step = m' at hstep hplain
    rcases hstep.aside_or_tries with haside | htries
    · have hreadings : m'.readings = m.readings :=
        readings_of_extends (haside.history.mono fun e => Entry.not_isPoll_of_isSideline)
      cases hstep with
      | tries m' _ _ htries => exact Or.inr (htries.accepts_of_plain hb hc hplain)
      | delivers closing y _ _ _ hr => exact Or.inl (.of_inlets hreadings (delivered_spec closing y hr).inlets)
      | ends m₁ v hends =>
        exact Or.inl (.of_released hreadings fun k => by rw [(finish_spec m₁ v).inlet, hends.inlets])
      | _ => exact Or.inl (.of_inlets hreadings rfl)
    · exact Or.inr (htries.accepts_of_plain hb hc hplain)
  | adjust p q s s' hq =>
    refine Or.inl ⟨rfl, fun k _ => ?_⟩
    unfold buffer?
    rw [List.getElem?_set]
    split
    · rename_i hk
      subst hk
      rw [if_pos (List.getElem?_eq_some_iff.1 hq).1, hq]
      rfl
    · rfl
  | abandon =>
    refine Or.inl (.of_released ?_ (getElem?_releaseAll m))
    exact (extends_releaseAll m).filterMap_eq fun e ⟨p, he⟩ => by rw [he]; rfl
  | _ => exact Or.inl (.of_inlets rfl rfl)

/-- The event `a` that the inlet `p` keeps is taken and handled, and nothing is read. -/
structure Takes (m : Merge L u) (p : InletId) (a : Arrival α) (m' : Merge L u) : Prop where
  kept : m.buffer? p = some a
  history : m.history <+: m'.history
  readings : m'.readings = m.readings
  buffer : ∀ k, m'.status? k = some .live → m'.buffer? k = if k = p then none else m.buffer? k

/-- What an event is taken from is what the attempt has found. -/
theorem Accepts.takes {a : Arrival α} {order : List InletId} (h : Accepts m p a m') (hc : m.Coherent)
    (horder : (L.choice m.memory m.state).readingOrder m.turn (m.inletIs · (·.isOpen)) = order) :
    (m.seek order).1 = some p ∧ Takes (m.seek order).2 p a m' := by
  obtain ⟨choice, order', q, hst, hp, hq, ha⟩ := h
  have hfit := hc.fits
  rw [hst] at hfit
  obtain ⟨-, -, rfl, rfl, -⟩ := hfit
  subst horder
  generalize hseek : m.seek _ = found at hp hq ⊢
  obtain ⟨rs, hrs, hout, -⟩ := history_dispatch (found.2.putInlet p q.take.2) (L.choice m.memory m.state) p a
  have hput : Extends (fun e => ¬ e.isPoll) found.2 (found.2.putInlet p q.take.2) :=
    (extends_putInlet found.2 p q.take.2).mono fun e he => by rw [he]; exact id
  have hdispatch : Extends (fun e => ¬ e.isPoll) (found.2.putInlet p q.take.2)
      ((found.2.putInlet p q.take.2).dispatch (L.choice m.memory m.state) p a) := by
    refine ⟨_, hrs, fun e he => ?_⟩
    rcases List.mem_cons.1 he with rfl | he
    · exact id
    · rcases List.mem_append.1 he with he | he
      · exact Entry.not_isPoll_of_isCall (isCall_handling he)
      · exact Entry.not_isPoll_of_isOutcome (hout e he)
  have hextends := hput.trans hdispatch
  refine ⟨hp, ?_, ?_, readings_of_extends hextends, fun k hk => ?_⟩
  · rw [buffer?, hq]
    exact ha
  · obtain ⟨es, hes, -⟩ := hextends
    exact ⟨es, hes.symm⟩
  · rcases inlet_dispatch (found.2.putInlet p q.take.2) (L.choice m.memory m.state) p a k with hi | hi
    · rw [buffer?, hi, inlets_putInlet, List.getElem?_set]
      by_cases hkp : k = p
      · subst hkp
        rw [if_pos rfl, if_pos rfl, if_pos (List.getElem?_eq_some_iff.1 hq).1]
        exact Inlet.buffer_take ha
      · rw [if_neg hkp, if_neg (Ne.symm hkp)]
        rfl
    · exact absurd hk (not_live_of_released hi)

end Merge
end

/-! ## Reading in pairs -/

section
variable {γ : Type} {xs ys : List γ}

/-- The readings of two sources that bring `xs` and `ys` and are read in pairs, the inlet 1 before the inlet 0. -/
def inPairs (xs ys : List γ) : List (InletId × Reply γ) :=
  (xs.zip ys).flatMap fun (x, y) => [(1, .element y), (0, .element x)]

theorem inPairs_concat (h : xs.length = ys.length) (x y : γ) :
    inPairs (xs ++ [x]) (ys ++ [y]) = inPairs xs ys ++ [(1, .element y), (0, .element x)] := by
  simp [inPairs, List.zip_append h]

theorem answers_inPairs : ∀ {xs ys : List γ}, xs.length = ys.length →
    ((inPairs xs ys).filter (·.1 = 0)).map Prod.snd = xs.map Reply.element ∧
    ((inPairs xs ys).filter (·.1 = 1)).map Prod.snd = ys.map Reply.element
  | [], [], _ => ⟨rfl, rfl⟩
  | x :: xs, y :: ys, h => by
    obtain ⟨hxs, hys⟩ := answers_inPairs (Nat.succ.inj h)
    unfold inPairs at hxs hys ⊢
    simp [hxs, hys]

end

namespace Merge

section
variable {u : Source (Side α β)} {m m' : Merge (zip α β) u}

/-- Both inlets are open. -/
def Open (m : Merge (zip α β) u) : Prop := m.status? 0 = some .live ∧ m.status? 1 = some .live

/-- What was read under pairing is known from what was handed over. -/
structure Thrifty (m : Merge (zip α β) u) : Prop where
  /-- Between two pairs, nothing is kept. -/
  even : m.Open → (m.handed 0).length = (m.handed 1).length →
    m.readings = inPairs (m.handed 0) (m.handed 1) ∧ m.buffer? 0 = none ∧ m.buffer? 1 = none
  /-- The partner of the element that waits is already there. -/
  odd : m.Open → (m.handed 0).length = (m.handed 1).length + 1 → ∃ e,
    m.readings = inPairs (m.handed 0) (m.handed 1 ++ [e]) ∧ m.buffer? 0 = none ∧ m.buffer? 1 = some (.element e)
  /-- The end of the left source comes when one more element of the right one was read. -/
  left : m.status? 0 = some .completed → (m.handed 0).length = (m.handed 1).length ∧ ∃ e,
    m.readings = inPairs (m.handed 0) (m.handed 1) ++ [(1, .element e), (0, .ended)]
  /-- The end of the right source comes after whole pairs. -/
  right : m.status? 1 = some .completed → (m.handed 0).length = (m.handed 1).length ∧
    m.readings = inPairs (m.handed 0) (m.handed 1) ++ [(1, .ended)]

/-! ### Nothing is handled -/

theorem Thrifty.idle (hi : m.Thrifty) (hk : Keeps m m') (h : Idle m m') : m'.Thrifty := by
  have hopen : m'.Open → m.Open := fun ho => ⟨(hk.status 0).live ho.1, (hk.status 1).live ho.2⟩
  constructor
  · intro ho heq
    rw [hk.handed, hk.handed] at heq ⊢
    rw [h.readings, h.buffer 0 ho.1, h.buffer 1 ho.2]
    exact hi.even (hopen ho) heq
  · intro ho heq
    rw [hk.handed, hk.handed] at heq ⊢
    rw [h.readings, h.buffer 0 ho.1, h.buffer 1 ho.2]
    exact hi.odd (hopen ho) heq
  · intro hc
    rw [hk.handed, hk.handed, h.readings]
    exact hi.left ((hk.status 0).completed_iff.1 hc)
  · intro hc
    rw [hk.handed, hk.handed, h.readings]
    exact hi.right ((hk.status 1).completed_iff.1 hc)

/-! ### An attempt -/

/-- When nothing is kept, the right inlet is filled first, to see whether its source has come to its end. -/
theorem seek_left (htwo : m.inlets.length = 2) (ho : m.Open) (hnone : m.buffer? 0 = none) (hnone' : m.buffer? 1 = none) :
    m.seek [0] = if (m.fill 1).inletIs 1 (·.hasTerminal) then (some 1, m.fill 1) else
      fillUntil (·.buffer.isSome) [0] (m.fill 1) := by
  have hkept : [0].find? (m.inletIs · (·.hasElement)) = none := by
    simp [inletIs_hasElement, hnone]
  have hended : m.inletIds.find? (m.inletIs · fun q => q.isOpen && q.hasTerminal) = none := by
    unfold inletIds
    rw [htwo]
    simp [List.range_succ, not_terminal_of_buffer hnone, not_terminal_of_buffer hnone']
  have hbystanders : m.bystanders [0] = [1] := by
    unfold bystanders inletIds
    rw [htwo]
    simp [List.range_succ, inletIs_isOpen_iff.2 ho.1, inletIs_isOpen_iff.2 ho.2]
  unfold seek
  rw [hkept]
  dsimp only
  rw [hended, hbystanders]
  dsimp only
  rw [fillUntil_cons]
  cases (m.fill 1).inletIs 1 (·.hasTerminal) <;> rfl

/-- Then the attempt is about the end of the right source, or an element of it is kept and the left source is polled. -/
theorem seek_left_cases (htwo : m.inlets.length = 2) (hb : m.Balanced) (ho : m.Open) (hnone : m.buffer? 0 = none)
    (hnone' : m.buffer? 1 = none) (hplain : ∀ e ∈ (m.seek [0]).2.history, e.isPlain) :
    ((m.seek [0]).1 = some 1 ∧ (m.seek [0]).2.readings = m.readings ++ [(1, .ended)] ∧
      (m.seek [0]).2.buffer? 1 = some .completed) ∨
    ∃ m₁ e, (m.seek [0]).1 = some 0 ∧ m₁.readings = m.readings ++ [(1, .element e)] ∧
      (m.seek [0]).2.buffer? 1 = some (.element e) ∧ Fills m₁ 0 (m.seek [0]).2 := by
  have hright := pollable_of_live hb ho.2 hnone'
  rw [seek_left htwo ho hnone hnone'] at hplain ⊢
  by_cases hterminal : (m.fill 1).inletIs 1 (·.hasTerminal) = true
  · rw [if_pos hterminal] at hplain ⊢
    rcases fills_fill hright hplain with ⟨x, -, hkept⟩ | ⟨hreadings, hkept⟩
    · rw [inletIs_hasTerminal, hkept] at hterminal
      cases hterminal
    · exact Or.inl ⟨rfl, hreadings, hkept⟩
  · have hlast : (fillUntil (·.buffer.isSome) [0] (m.fill 1)).2 = (m.fill 1).fill 0 := by
      rw [fillUntil_cons]
      split <;> rfl
    rw [if_neg hterminal, hlast] at hplain
    rw [if_neg hterminal, hlast]
    have hplain₁ : ∀ e ∈ (m.fill 1).history, e.isPlain := by
      obtain ⟨es, hes, -⟩ := extends_fill (m.fill 1) 0
      rw [hes] at hplain
      exact fun e he => hplain e (List.mem_append_left es he)
    have hleft : (m.fill 1).Pollable 0 := by
      obtain ⟨q, s, hq, hempty⟩ := pollable_of_live hb ho.1 hnone
      exact ⟨q, s, (getElem?_fill_of_ne (by decide)).trans hq, hempty⟩
    have hfills := fills_fill hleft hplain
    have hsome : ((m.fill 1).fill 0).inletIs 0 (·.buffer.isSome) = true := by
      rw [inletIs_isSome]
      cases hfills with
      | element y _ hy => rw [hy]; rfl
      | ended _ hy => rw [hy]; rfl
    rcases fills_fill hright hplain₁ with ⟨x, hreadings, hkept⟩ | ⟨-, hkept⟩
    · refine Or.inr ⟨m.fill 1, x, ?_, hreadings, ?_, hfills⟩
      · rw [fillUntil_cons, if_pos hsome]
      · rw [buffer?_fill_of_ne (by decide), hkept]
    · rw [inletIs_hasTerminal, hkept] at hterminal
      exact absurd rfl hterminal

/-! ### An event is handled -/

/-- Handling an event changes the status of its own inlet at most. -/
theorem Paired.retains {p : InletId} {a : Arrival (Side α β)} (hi : m.Paired) (h : Handles m p a m')
    (hsided : m'.Sided) (k : InletId) : m'.Retains k (if k = p then some a.status else m.status? k) := by
  obtain ⟨t, ht, honce, hreleases⟩ : ∃ t, m.transition p a = t ∧ (Effects.ofActions t.actions).emittedTwice = false ∧
      (Effects.ofActions t.actions).releases = [] := by
    cases a with
    | element e =>
      rcases hi.turn h hsided with ⟨x, hs, rfl, rfl, -⟩ | ⟨x, y, hs, rfl, rfl, hmem⟩
      · exact ⟨_, transition_readLeft hs 0 x, rfl, rfl⟩
      · exact ⟨_, transition_readRight hs hmem 1 y, rfl, rfl⟩
    | completed => exact ⟨m.remain [.complete], by unfold transition; rw [hi.eager], rfl, rfl⟩
    | failed c => exact ⟨m.remain [.fail (.sourceFailed c)], by unfold transition; rw [hi.eager], rfl, rfl⟩
  subst ht
  exact (h.obeys honce).status hreleases k

/-- As many elements of the left side as of the right one were handed over, and the one that waits. -/
theorem Matched.length_handed (h : m.Matched) :
    (m.handed 0).length = (m.handed 1).length + m.memory.toList.length := by
  obtain ⟨as, bs, hlen, h₀, h₁, -⟩ := h
  rw [h₀, h₁]
  simp [hlen]

theorem Matched.sided (h : m.Matched) : m.Sided := by
  obtain ⟨as, bs, -, h₀, h₁, -⟩ := h
  constructor
  · intro e he
    rw [h₀] at he
    obtain ⟨x, -, rfl⟩ := List.mem_map.1 he
    exact ⟨x, rfl⟩
  · intro e he
    rw [h₁] at he
    obtain ⟨y, -, rfl⟩ := List.mem_map.1 he
    exact ⟨y, rfl⟩

theorem Paired.open (hi : m.Paired) (htwo : m.inlets.length = 2) (hr : m.stage.isFinal = false)
    (hc : m.stage.closing = false) : m.Open :=
  ⟨hi.unended hr hc 0 (by omega), hi.unended hr hc 1 (by omega)⟩

/-- An inlet comes to its end only with its own event. -/
theorem Paired.not_completed {p k : InletId} {a : Arrival (Side α β)} (hi : m.Paired) (h : Handles m p a m')
    (hsided : m'.Sided) (hlive : m.status? k = some .live) (hk : k = p → a.status ≠ .completed) :
    m'.status? k ≠ some .completed := by
  intro hc
  have hstatus := (hi.retains h hsided k).completed_iff.1 hc
  split at hstatus
  · rename_i hkp
    exact hk hkp (Option.some.inj hstatus)
  · rw [hlive] at hstatus
    cases hstatus

theorem Paired.completed {p : InletId} (hi : m.Paired) (h : Handles m p .completed m') (hsided : m'.Sided) :
    m'.status? p = some .completed :=
  (hi.retains h hsided p).completed_iff.2 (if_pos rfl)

theorem Thrifty.accepts_left {p : InletId} {a : Arrival (Side α β)} (hi : m.Thrifty) (hp : m.Paired)
    (htwo : m.inlets.length = 2) (hb : m.Balanced) (hc : m.Coherent) (h : Accepts m p a m') (hsided : m'.Sided)
    (hplain : ∀ e ∈ m'.history, e.isPlain) (hs : m.state = .readLeft) : m'.Thrifty := by
  have hh := h.handles hb hc
  have ho := hp.open htwo hh.running hh.closing
  have hmemory : m.memory = none := by
    have hwaiting := hp.waiting
    rw [hs] at hwaiting
    simpa using hwaiting
  have hlen : (m.handed 0).length = (m.handed 1).length := by
    have hmatched := hp.matched.length_handed
    rw [hmemory] at hmatched
    exact hmatched
  obtain ⟨hread, hnone, hnone'⟩ := hi.even ho hlen
  have horder : ((zip α β).choice m.memory m.state).readingOrder m.turn (m.inletIs · (·.isOpen)) = [0] := by
    rw [hs]
    exact if_pos (inletIs_isOpen_iff.2 ho.1)
  obtain ⟨hfound, htakes⟩ := h.takes hc horder
  have hplain' : ∀ e ∈ (m.seek [0]).2.history, e.isPlain := fun e he => hplain e (htakes.history.subset he)
  rcases seek_left_cases htwo hb ho hnone hnone' hplain' with ⟨hone, hend, hkept⟩ | ⟨m₁, e, hzero, hread₁, hkept, hfills⟩
  · -- The right source has come to its end.
    obtain rfl := Option.some.inj (hfound.symm.trans hone)
    obtain rfl := Option.some.inj (htakes.kept.symm.trans hkept)
    have hcompleted := hp.completed hh hsided
    have hhanded := hh.handed_of_terminal rfl
    refine ⟨fun ho' => ?_, fun ho' => ?_, fun hleft => ?_, fun _ => ?_⟩
    · rw [ho'.2] at hcompleted
      cases hcompleted
    · rw [ho'.2] at hcompleted
      cases hcompleted
    · exact absurd hleft (hp.not_completed hh hsided ho.1 (by simp))
    · rw [hhanded, hhanded, htakes.readings, hend, hread]
      exact ⟨hlen, rfl⟩
  · obtain rfl := Option.some.inj (hfound.symm.trans hzero)
    have hright := hp.not_completed hh hsided ho.2 (by simp)
    cases hfills with
    | element x hread₂ hkept₂ =>
      -- A left element is handed over, and its partner is kept.
      obtain rfl := Option.some.inj (htakes.kept.symm.trans hkept₂)
      have h₀ : m'.handed 0 = m.handed 0 ++ [x] := hh.handed 0
      have h₁ : m'.handed 1 = m.handed 1 := (hh.handed 1).trans (List.append_nil _)
      refine ⟨fun _ heq => ?_, fun ho' _ => ⟨e, ?_, ?_, ?_⟩, fun hleft => ?_, fun h => absurd h hright⟩
      · rw [h₀, h₁, List.length_append, List.length_singleton] at heq
        omega
      · rw [h₀, h₁, inPairs_concat hlen, htakes.readings, hread₂, hread₁, hread, List.append_assoc]
        rfl
      · exact htakes.buffer 0 ho'.1
      · exact (htakes.buffer 1 ho'.2).trans hkept
      · exact absurd hleft (hp.not_completed hh hsided ho.1 (by simp [Arrival.status]))
    | ended hread₂ hkept₂ =>
      -- The left source has come to its end, and the element that was read for nothing is known.
      obtain rfl := Option.some.inj (htakes.kept.symm.trans hkept₂)
      have hcompleted := hp.completed hh hsided
      have hhanded := hh.handed_of_terminal rfl
      refine ⟨fun ho' => ?_, fun ho' => ?_, fun _ => ?_, fun h => absurd h hright⟩
      · rw [ho'.1] at hcompleted
        cases hcompleted
      · rw [ho'.1] at hcompleted
        cases hcompleted
      · rw [hhanded, hhanded, htakes.readings, hread₂, hread₁, hread, List.append_assoc]
        exact ⟨hlen, e, rfl⟩

theorem Thrifty.accepts_right {p : InletId} {a : Arrival (Side α β)} (hi : m.Thrifty) (hp : m.Paired)
    (htwo : m.inlets.length = 2) (hb : m.Balanced) (hc : m.Coherent) (h : Accepts m p a m') (hsided : m'.Sided)
    (hs : m.state = .readRight) : m'.Thrifty := by
  have hh := h.handles hb hc
  have ho := hp.open htwo hh.running hh.closing
  have hlen : (m.handed 0).length = (m.handed 1).length + 1 := by
    obtain ⟨x, hmemory⟩ := Option.isSome_iff_exists.1 (hp.waiting.1 hs)
    have hmatched := hp.matched.length_handed
    rw [hmemory] at hmatched
    exact hmatched
  obtain ⟨e, hread, hnone, hkept⟩ := hi.odd ho hlen
  have horder : ((zip α β).choice m.memory m.state).readingOrder m.turn (m.inletIs · (·.isOpen)) = [1] := by
    rw [hs]
    exact if_pos (inletIs_isOpen_iff.2 ho.2)
  obtain ⟨hfound, htakes⟩ := h.takes hc horder
  have hseek : m.seek [1] = (some 1, m) := by
    have hfirst : [1].find? (m.inletIs · (·.hasElement)) = some 1 := by
      simp [inletIs_hasElement, hkept, Arrival.isTerminal]
    unfold seek
    rw [hfirst]
  rw [hseek] at hfound htakes
  obtain rfl := Option.some.inj hfound
  obtain rfl := Option.some.inj (htakes.kept.symm.trans hkept)
  have h₀ : m'.handed 0 = m.handed 0 := (hh.handed 0).trans (List.append_nil _)
  have h₁ : m'.handed 1 = m.handed 1 ++ [e] := hh.handed 1
  refine ⟨fun ho' _ => ⟨?_, ?_, ?_⟩, fun _ heq => ?_, fun hleft => ?_, fun hright => ?_⟩
  · rw [h₀, h₁, htakes.readings, hread]
  · exact (htakes.buffer 0 ho'.1).trans hnone
  · exact htakes.buffer 1 ho'.2
  · rw [h₀, h₁, List.length_append, List.length_singleton] at heq
    omega
  · exact absurd hleft (hp.not_completed hh hsided ho.1 (by simp))
  · exact absurd hright (hp.not_completed hh hsided ho.2 (by simp [Arrival.status]))

/-- **Where every answer is there, pairing reads by turns and in pairs.** -/
theorem Thrifty.change (hi : m.Thrifty) (hp : m.Paired) (htwo : m.inlets.length = 2) (hb : m.Balanced)
    (hc : m.Coherent) (h : Change m m') (hsided : m'.Sided) (hplain : ∀ e ∈ m'.history, e.isPlain) : m'.Thrifty := by
  rcases and_or_right.2 ⟨h.keeps_or_accepts, h.idle_or_accepts hb hc hplain⟩ with ⟨hkeeps, hidle⟩ | ⟨p, a, haccepts⟩
  · exact hi.idle hkeeps hidle
  · cases hs : m.state with
    | readLeft => exact hi.accepts_left hp htwo hb hc haccepts hsided hplain hs
    | readRight => exact hi.accepts_right hp htwo hb hc haccepts hsided hs

theorem Fresh.thrifty {sources : List u.State} (h : Fresh m sources) (htwo : m.inlets.length = 2) : m.Thrifty := by
  have hhanded : ∀ p, m.handed p = [] := fun p => by rw [handed, h.history]; rfl
  have hreadings : m.readings = [] := by rw [readings, h.history]; rfl
  have hstatus : ∀ p : InletId, p < 2 → m.status? p = some .live := fun p hp => h.status? (htwo ▸ hp)
  have hbuffer : ∀ p, m.buffer? p = none := by
    intro p
    rw [buffer?, h.inlets, List.getElem?_map]
    cases sources[p]? <;> rfl
  refine ⟨fun _ _ => ⟨?_, hbuffer 0, hbuffer 1⟩, fun _ heq => ?_, fun hleft => ?_, fun hright => ?_⟩
  · rw [hhanded, hhanded, hreadings]
    rfl
  · rw [hhanded, hhanded] at heq
    cases heq
  · rw [hstatus 0 (by decide)] at hleft
    cases hleft
  · rw [hstatus 1 (by decide)] at hright
    cases hright

/-- It does so in a whole run. -/
theorem play_thrifty {settings : Settings} {sources : List u.State} (hm : setUp (zip α β) u settings sources = .ok m)
    (htwo : m.inlets.length = 2) {moves : List (Move u)} (hsided : ((Session.start m).play moves).merge.Sided)
    (hplain : ∀ e ∈ ((Session.start m).play moves).merge.history, e.isPlain) :
    ((Session.start m).play moves).merge.Thrifty := by
  have hfresh := setUp_fresh hm
  -- As in `Upholds.play`, what is known of the last merge goes back from there.
  have h := (Session.play_changes moves (Session.start m)).induction
    (motive := fun m => m.Regular ∧ m.Tidy ∧ (m.Sided → (m.inlets.length = 2 ∧ m.Paired) ∧ m.Upright) ∧
      (m.Sided → (∀ e ∈ m.history, e.isPlain) → m.Thrifty))
    (fun m m' hch ⟨hreg, ht, hpaired, hthrifty⟩ => by
      refine ⟨hch.regular hreg, hch.tidy ht hreg.balanced, paired_upholds.change hch hreg ht hpaired,
        fun hsided hplain => ?_⟩
      have hsided₀ := paired_upholds.before (handed_change hch hreg) hsided
      have hplain₀ : ∀ e ∈ m.history, e.isPlain := by
        obtain ⟨es, hes, -⟩ := hch.extends_concerns hreg.balanced
        rw [hes] at hplain
        exact fun e he => hplain e (List.mem_append_left es he)
      obtain ⟨⟨hcount, hp⟩, -⟩ := hpaired hsided₀
      exact (hthrifty hsided₀ hplain₀).change hp hcount hreg.balanced hreg.coherent hch hsided hplain)
    ⟨hfresh.regular, hfresh.tidy, fun _ => ⟨⟨htwo, paired_setUp hm htwo⟩, upright_of_fresh hfresh⟩,
      fun _ _ => hfresh.thrifty htwo⟩
  exact h.2.2.2 hsided hplain

theorem Thrifty.yielded_of_left (h : m.Thrifty) (hleft : m.status? 0 = some .completed) :
    ∃ e, m.yielded 1 = m.handed 1 ++ [e] := by
  obtain ⟨hequal, e, hread⟩ := h.left hleft
  refine ⟨e, ?_⟩
  rw [yielded_eq_answers, answers, hread, List.filter_append, List.map_append, (answers_inPairs hequal).2,
    List.filterMap_append, filterMap_element?]
  rfl

theorem Thrifty.answers_of_right (h : m.Thrifty) (hright : m.status? 1 = some .completed) :
    m.answers 0 = (m.handed 0).map .element := by
  obtain ⟨hequal, hread⟩ := h.right hright
  rw [answers, hread, List.filter_append, List.map_append, (answers_inPairs hequal).1]
  exact List.append_nil _

/-- How far pairing reads two lists. -/
structure ReadsNoFurther (m : Merge (zip α β) u) (as : List α) (bs : List β) : Prop where
  /-- If the right list is not the longer one, the left source is polled once for each element of it, and so the first
  element without a partner is never read. -/
  left : bs.length ≤ as.length → (m.answers 0).length = bs.length ∧
    m.answers 0 = ((as.take bs.length).map .left).map .element
  /-- Otherwise the right source yields one element more than the left list has, and this one is not handed over. -/
  right : as.length < bs.length → (m.yielded 1).length = as.length + 1 ∧
    m.yielded 1 = (bs.take (as.length + 1)).map .right ∧ m.handed 1 = (bs.take as.length).map .right

theorem ReadsNoFurther.of_history {as : List α} {bs : List β} (h : m.ReadsNoFurther as bs)
    (hh : m'.history = m.history) : m'.ReadsNoFurther as bs := by
  have ha : m'.answers 0 = m.answers 0 := by unfold answers readings; rw [hh]
  have hy : m'.yielded 1 = m.yielded 1 := by unfold yielded; rw [hh]
  have hd : m'.handed 1 = m.handed 1 := by unfold handed; rw [hh]
  constructor
  · rw [ha]
    exact h.left
  · rw [hy, hd]
    exact h.right

end
end Merge

/-! ## Lists that are paired -/

namespace Session

variable {u : Source α} {v : Source β} {w : u.Forecast} {z : v.Forecast} {as : List α} {bs : List β}
variable {s : Session (Strategy.zip α β) (Source.sides u v)}

/-- Between two pairs, as much of the two lists was handed over as was paired. -/
theorem Staged.whole (h : s.Staged (w.sides z) [as.map .left, bs.map .right])
    (hequal : (s.merge.handed 0).length = (s.merge.handed 1).length) : ∃ as' bs' r₀ r₁, as'.length = bs'.length ∧
    s.merge.emissions = as'.zip bs' ∧ s.merge.handed 0 = as'.map .left ∧ s.merge.handed 1 = bs'.map .right ∧
    as = as' ++ r₀ ∧ bs = bs' ++ r₁ ∧
    (s.merge.status? 0 = some .completed → r₀ = []) ∧ (s.merge.status? 1 = some .completed → r₁ = []) := by
  obtain ⟨as', bs', r₀, r₁, hlen, hem, hh₀, hh₁, has, hbs, hend₀, hend₁⟩ := h.matched
  obtain ⟨t₀, ht₀, -⟩ := h.rest (p := 0) rfl
  obtain ⟨t₁, ht₁, -⟩ := h.rest (p := 1) rfl
  have hmemory : s.merge.memory.toList = [] := List.length_eq_zero_iff.1 (by omega)
  rw [hmemory, List.append_nil] at has
  refine ⟨as', bs', r₀, r₁, hlen, hem, ?_, ?_, has, hbs, hend₀, hend₁⟩
  · rw [List.prefix_iff_eq_take.1 ⟨t₀, ht₀.symm⟩, hequal, hh₁, ← hlen, has, List.map_append, List.take_left']
    simp
  · rw [List.prefix_iff_eq_take.1 ⟨t₁, ht₁.symm⟩, hh₁, hbs, List.map_append, List.take_left']
    simp

theorem Staged.ended_side (h : s.Staged (w.sides z) [as.map .left, bs.map .right])
    (hv : s.merge.verdict? = some (.ok .completed)) :
    s.merge.status? 0 = some .completed ∨ s.merge.status? 1 = some .completed := by
  obtain ⟨p, hp⟩ := h.paired.ended hv
  have hcount : s.merge.inlets.length = 2 := h.count
  have hlt : p < 2 := hcount ▸ Merge.isSome_status?.1 (by rw [hp]; rfl)
  obtain rfl | rfl := Nat.le_one_iff_eq_zero_or_eq_one.1 (Nat.le_of_lt_succ hlt)
  · exact Or.inl hp
  · exact Or.inr hp

/-- **A completed pairing of sources that always had an answer has sent all pairs, and has read no further than it had
to.** -/
theorem Staged.reads (h : s.Staged (w.sides z) [as.map .left, bs.map .right]) (hthrifty : s.merge.Thrifty)
    (hv : s.merge.verdict? = some (.ok .completed)) :
    s.merge.sent = as.zip bs ∧ s.merge.ReadsNoFurther as bs := by
  have hended := h.ended_side hv
  have hequal := hended.elim (fun hleft => (hthrifty.left hleft).1) fun hright => (hthrifty.right hright).1
  obtain ⟨as', bs', r₀, r₁, hlen, hem, hh₀, hh₁, rfl, rfl, hend₀, hend₁⟩ := h.whole hequal
  have hsent : s.merge.sent = (as' ++ r₀).zip (bs' ++ r₁) := by
    rw [h.forthright.completed h.coherent hv, hem, List.zip_append hlen]
    rcases hended with hleft | hright
    · simp [hend₀ hleft]
    · simp [hend₁ hright]
  rcases hended with hleft | hright
  · -- The right list is the longer one: an element of it was read that was not paired.
    obtain rfl := hend₀ hleft
    obtain ⟨e, hyielded⟩ := hthrifty.yielded_of_left hleft
    have hprefix : s.merge.yielded 1 <+: (bs' ++ r₁).map .right := by
      have hcount : s.merge.inlets.length = 2 := h.count
      have hq := List.getElem?_eq_getElem (l := s.merge.inlets) (i := 1) (by omega)
      exact (h.supplied 1 _ _ hq rfl).yielded
    have hlength : (s.merge.yielded 1).length = bs'.length + 1 := by
      rw [hyielded, List.length_append, hh₁, List.length_map]
      rfl
    have hlonger := hprefix.length_le
    rw [hlength, List.length_map] at hlonger
    rw [List.append_nil] at hsent ⊢
    refine ⟨hsent, fun hle => by omega, fun _ => ⟨hlen ▸ hlength, ?_, ?_⟩⟩
    · rw [List.prefix_iff_eq_take.1 hprefix, hlength, ← hlen, List.map_take]
    · rw [hh₁, hlen, List.take_left]
  · obtain rfl := hend₁ hright
    have hanswers := hthrifty.answers_of_right hright
    rw [List.append_nil] at hsent ⊢
    refine ⟨hsent, fun _ => ⟨?_, ?_⟩, fun hlt => ?_⟩
    · rw [hanswers, hh₀, List.length_map, List.length_map, hlen]
    · rw [hanswers, hh₀, ← hlen, List.take_left]
    · rw [List.length_append] at hlt
      omega

/-- **Pairing two lists gives exactly their pairs, and reads no further than it has to.** In batches of any size, the
run is completed; if the right list is not the longer one, the left source is polled once for each element of it, and
otherwise the right source yields one element more than the left list has. -/
theorem zips_thriftily (settings : Settings) {batch : Nat} (hbatch : batch ≤ Credit.limit) (as : List α)
    (bs : List β) : ∃ m s, Merge.setUp (Strategy.zip α β) (Source.sides (scripted α) (scripted β)) settings
      [.inl (.ofList as), .inr (.ofList bs)] = .ok m ∧
    (start m).collect (Session.fuel (Sum.elim Script.remaining? Script.remaining?))
      (Session.fuel (Sum.elim Script.remaining? Script.remaining?) (start m)) batch =
        (.ended (.ok (as.zip bs)), .ended (.ok .completed), s) ∧
    s.merge.ReadsNoFurther as bs := by
  have hw := (Script.instant_lists (α := α)).sides (Script.instant_lists (α := β))
  obtain ⟨m, hm⟩ : ∃ m, Merge.setUp (Strategy.zip α β) (Source.sides (scripted α) (scripted β)) settings
      [.inl (.ofList as), .inr (.ofList bs)] = .ok m := Merge.exists_setUp rfl
  have ha : List.Forall₂ ((Script.lists α).sides (Script.lists β)).ahead
      [.inl (.ofList as), .inr (.ofList bs)] [as.map .left, bs.map .right] :=
    .cons ⟨as, rfl, rfl⟩ (.cons ⟨bs, rfl, rfl⟩ .nil)
  have htwo : m.inlets.length = 2 := (Merge.setUp_fresh hm).count
  obtain ⟨s, hs⟩ := collect_instant hw hm ha hbatch
  obtain ⟨moves, hspared, rfl⟩ := hs.leads.spared (w := (Script.lists α).sides (Script.lists β))
  have hstaged : ((start m).play moves).Staged ((Script.lists α).sides (Script.lists β))
      [as.map .left, bs.map .right] := .play hm ha hspared
  have hsided := hstaged.paired.matched.sided
  have hup := Merge.paired_upholds.play hm ⟨htwo, Merge.paired_setUp hm htwo⟩ moves hsided
  obtain ⟨hverdict, hresult⟩ := hs.completed hup
  have hthrifty := Merge.play_thrifty hm htwo hsided hs.onCourse.plain
  obtain ⟨hsent, hreads⟩ := hstaged.reads hthrifty hverdict
  rw [hsent] at hresult
  exact ⟨m, _, hm, hresult, hreads.of_history ((perform_changes ((start m).play moves) .pollCollector).rests hs.finished).1⟩

/-- The right list is the longer one, so that its second element is read for nothing, and its third is not read. -/
theorem zips_thriftily_ragged : 1 ≤ Credit.limit ∧
    ∃ m s, Merge.setUp (Strategy.zip Nat Nat) (Source.sides (scripted Nat) (scripted Nat)) .standard
        [.inl (.ofList [1]), .inr (.ofList [2, 4, 6])] = .ok m ∧
      (start m).collect (Session.fuel (Sum.elim Script.remaining? Script.remaining?))
        (Session.fuel (Sum.elim Script.remaining? Script.remaining?) (start m)) 1 =
          (.ended (.ok [(1, 2)]), .ended (.ok .completed), s) ∧
      s.merge.yielded 1 = [.right 2, .right 4] ∧ s.merge.handed 1 = [.right 2] := by
  have hbatch : 1 ≤ Credit.limit := by decide
  obtain ⟨m, s, hm, hresult, hreads⟩ := zips_thriftily (α := Nat) (β := Nat) .standard hbatch [1] [2, 4, 6]
  obtain ⟨-, hyielded, hhanded⟩ := hreads.right (by decide)
  exact ⟨hbatch, m, s, hm, hresult, hyielded, hhanded⟩

end Session
end StreamMerge
