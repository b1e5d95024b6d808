import StreamMerge.Proofs.Course

/-!
# Pairing never mispairs

Under pairing the consumer gets the elements of the two sources in pairs, the first with the first, the second with
the second, whatever the sources and the consumer do and when (`Session.Staged.pairs`). The invariant `Paired` ties
what was handed over to the element that waits for its partner and to the pairs that were emitted.
-/
namespace StreamMerge

open Strategy

variable {α β : Type}

namespace Merge

section
variable {u : Source (Side α β)} {m m' : Merge (zip α β) u}

/-- The left inlet brought left elements only, and the right inlet right ones. -/
structure Sided (m : Merge (zip α β) u) : Prop where
  left : ∀ e ∈ m.handed 0, ∃ x, e = .left x
  right : ∀ e ∈ m.handed 1, ∃ y, e = .right y

/-- What was handed over is what was paired, and on the left the element that waits for its partner. -/
def Matched (m : Merge (zip α β) u) : Prop := ∃ as bs, as.length = bs.length ∧
  m.handed 0 = (as ++ m.memory.toList).map .left ∧ m.handed 1 = bs.map .right ∧ m.emissions = as.zip bs

/-- The invariant of pairing. -/
structure Paired (m : Merge (zip α β) u) : Prop where
  matched : m.Matched
  waiting : m.state = .readRight ↔ m.memory.isSome = true
  eager : m.policy = .eager
  /-- Until an end is seen, both inlets are open. -/
  unended : m.stage.isFinal = false → m.stage.closing = false → ∀ p, p < m.inlets.length → m.status? p = some .live
  closing : m.stage.closing = true → ∃ p, m.status? p = some .completed
  ended : m.verdict? = some (.ok .completed) → ∃ p, m.status? p = some .completed
  lawful : ∀ violation, m.verdict? ≠ some (.error (.protocol violation))

theorem Matched.of_eq (h : m.Matched) (hm : m'.memory = m.memory) (hh : ∀ p, m'.handed p = m.handed p)
    (he : m'.emissions = m.emissions) : m'.Matched := by
  obtain ⟨as, bs, hlen, h₀, h₁, hem⟩ := h
  exact ⟨as, bs, hlen, by rw [hh, hm, h₀], by rw [hh, h₁], he.trans hem⟩

/-! ## Nothing is handled -/

/-- As long as no end was seen, the choice of the present state can be read. -/
theorem Paired.readable (hp : m.Paired) (htwo : m.inlets.length = 2) (hr : m.stage.isFinal = false)
    (hc : m.stage.closing = false) :
    ((zip α β).choice m.memory m.state).check m.inlets.length = none ∧
      ((zip α β).choice m.memory m.state).readingOrder m.turn (m.inletIs · (·.isOpen)) ≠ [] := by
  have hlt : m.state.inlet < m.inlets.length := by
    rw [htwo]
    cases m.state <;> decide
  have hlive := hp.unended hr hc m.state.inlet hlt
  refine ⟨?_, ?_⟩
  · simp [Choice.check, Choice.inlets, hlt]
  · simp [Choice.readingOrder, inletIs_isOpen_iff.2 hlive]

theorem Paired.keeps (hi : m.Paired) (htwo : m.inlets.length = 2) (h : Keeps m m') : m'.Paired := by
  have hcomp : (∃ p, m.status? p = some .completed) → ∃ p, m'.status? p = some .completed :=
    fun ⟨p, hp⟩ => ⟨p, (h.status p).completed_iff.2 hp⟩
  refine ⟨hi.matched.of_eq h.memory h.handed h.emissions, by rw [h.state, h.memory]; exact hi.waiting,
    h.policy.trans hi.eager, fun hr hc p hp => ?_, fun hc => ?_, fun hv => ?_, fun violation hv => ?_⟩
  · rw [(h.status p).running hr]
    refine hi.unended (h.running hr) (h.closing hr ▸ hc) p (isSome_status?.1 ?_)
    rw [← (h.status p).isSome_iff, isSome_status?]
    exact hp
  · cases hr : m'.stage.isFinal with
    | true =>
      rw [closing_of_isFinal hr] at hc
      cases hc
    | false => exact hcomp (hi.closing (h.closing hr ▸ hc))
  · rcases h.verdict _ hv with hv | ⟨m₁, hends⟩
    · exact hcomp (hi.ended hv)
    · cases hends with
      | completed closing hst hu hco =>
        cases closing with
        | true => exact hcomp (hi.closing (by rw [hst]; rfl))
        | false =>
          have hlive := hi.unended (by rw [hst]; rfl) (by rw [hst]; rfl) 0 (by rw [htwo]; decide)
          rcases hco with hco | hco
          · cases hco
          · exact absurd hlive (ne_live_of_openInlets hco 0)
  · rcases h.verdict _ hv with hv | ⟨m₁, hends⟩
    · exact hi.lawful violation hv
    · cases hends with
      | refused violation haim _ hcheck =>
        have := (hi.readable htwo haim.isFinal haim.closing).1
        rw [hcheck] at this
        cases this
      | stuck haim _ hstuck => exact (hi.readable htwo haim.isFinal haim.closing).2 hstuck

/-! ## An event is handled -/

theorem transition_readLeft (hs : m.state = .readLeft) (p : InletId) (x : α) :
    m.transition p (.element (.left x)) = ⟨[], .readRight, some x⟩ := by
  show (zip α β).onElement m.memory m.inlets.length m.state p (.left x) = _
  rw [hs]

theorem transition_readRight {x : α} (hs : m.state = .readRight) (hm : m.memory = some x) (p : InletId) (y : β) :
    m.transition p (.element (.right y)) = ⟨[.emit (x, y)], .readLeft, none⟩ := by
  show (zip α β).onElement m.memory m.inlets.length m.state p (.right y) = _
  rw [hs, hm]

/-- Handling an element closes no inlet and does not end the run. -/
theorem Paired.element_of {p : InletId} {e : Side α β} {t : Transition (α × β) Empty PairingState (Option α)}
    (hi : m.Paired) (h : Handles m p (.element e) m') (ht : m.transition p (.element e) = t)
    (hacts : t.actions = [] ∨ ∃ y, t.actions = [.emit y]) (hmatch : m'.memory = t.memory →
      m'.emissions = m.emissions ++ t.emission?.toList → m'.Matched)
    (hwait : t.next = .readRight ↔ t.memory.isSome = true) : m'.Paired := by
  have hfx : (Effects.ofActions t.actions).emittedTwice = false ∧ (Effects.ofActions t.actions).releases = [] ∧
      (Effects.ofActions t.actions).policy = none ∧ (Effects.ofActions t.actions).closing = none := by
    rcases hacts with ha | ⟨y, ha⟩ <;> rw [ha] <;> simp [Effects.ofActions, Effects.add, Effects.empty]
  obtain ⟨hone, hrel, hpol, hclose⟩ := hfx
  subst ht
  have ho := h.obeys hone
  have hst := ho.stage
  rw [hclose] at hst
  have hstatus : ∀ k, m'.status? k = m.status? k := by
    intro k
    rw [(ho.status hrel k).running (by rw [hst]; rfl)]
    split
    · rename_i hk
      rw [hk, inletIs_isOpen_iff.1 h.isOpen]
      rfl
    · rfl
  refine ⟨hmatch ho.memory h.emissions, by rw [ho.state, ho.memory]; exact hwait,
    by rw [ho.policy, hpol]; exact hi.eager, fun _ _ k hk => ?_, fun hc => ?_, fun hv => ?_,
    fun violation hv => ?_⟩
  · rw [hstatus]
    refine hi.unended h.running h.closing k (isSome_status?.1 ?_)
    rw [← hstatus, isSome_status?]
    exact hk
  · rw [hst] at hc
    cases hc
  · rw [verdict?_of_isFinal (by rw [hst]; rfl)] at hv
    cases hv
  · rw [verdict?_of_isFinal (by rw [hst]; rfl)] at hv
    cases hv

/-- A left element comes when none waits, and a right one when a left one does. -/
theorem Paired.turn {p : InletId} {e : Side α β} (hi : m.Paired) (h : Handles m p (.element e) m')
    (hsided : m'.Sided) : (∃ x, m.state = .readLeft ∧ p = 0 ∧ e = .left x ∧ m.memory = none) ∨
      ∃ x y, m.state = .readRight ∧ p = 1 ∧ e = .right y ∧ m.memory = some x := by
  have hp : p = m.state.inlet := by simpa [Choice.inlets] using h.chosen rfl
  have hnew : e ∈ m'.handed p := by
    rw [h.handed p, if_pos rfl]
    simp [Arrival.element?]
  have hwait := hi.waiting
  cases hs : m.state with
  | readLeft =>
    rw [hs] at hp hwait
    obtain rfl : p = 0 := hp
    obtain ⟨x, rfl⟩ := hsided.left e hnew
    exact Or.inl ⟨x, rfl, rfl, rfl, by simpa using hwait⟩
  | readRight =>
    rw [hs] at hp
    obtain rfl : p = 1 := hp
    obtain ⟨x, hmem⟩ := Option.isSome_iff_exists.1 (hwait.1 hs)
    obtain ⟨y, rfl⟩ := hsided.right e hnew
    exact Or.inr ⟨x, y, rfl, rfl, rfl, hmem⟩

theorem Paired.element {p : InletId} {e : Side α β} (hi : m.Paired) (h : Handles m p (.element e) m')
    (hsided : m'.Sided) : m'.Paired := by
  obtain ⟨as, bs, hlen, h₀, h₁, hem⟩ := hi.matched
  have hnew : ∀ k, m'.handed k = m.handed k ++ if k = p then [e] else [] := h.handed
  rcases hi.turn h hsided with ⟨x, hs, rfl, rfl, hmem⟩ | ⟨x, y, hs, rfl, rfl, hmem⟩
  · refine hi.element_of h (transition_readLeft hs 0 x) (Or.inl rfl) (fun hm he => ?_) (by simp)
    refine ⟨as, bs, hlen, ?_, ?_, ?_⟩
    · rw [hnew, h₀, hm, hmem]
      simp
    · rw [hnew, h₁]
      simp
    · rw [he, hem]
      exact List.append_nil _
  · refine hi.element_of h (transition_readRight hs hmem 1 y) (Or.inr ⟨_, rfl⟩) (fun hm he => ?_) (by simp)
    refine ⟨as ++ [x], bs ++ [y], by simp [hlen], ?_, ?_, ?_⟩
    · rw [hnew, h₀, hm, hmem]
      simp
    · rw [hnew, h₁]
      simp
    · rw [he, hem, List.zip_append hlen]
      rfl

/-- The first end or failure ends the merge. -/
theorem Paired.terminal {p : InletId} {a : Arrival (Side α β)} (hi : m.Paired) (h : Handles m p a m')
    (ht : a.isTerminal = true) : m'.Paired := by
  -- The policy answers both by a request to close, and stays in the state.
  obtain ⟨action, htr, hact⟩ : ∃ action, m.transition p a = m.remain [action] ∧
      (a = .completed ∧ action = .complete ∨ ∃ c, action = .fail (.sourceFailed c)) := by
    unfold transition
    rw [hi.eager]
    cases a with
    | element x => cases ht
    | completed => exact ⟨_, rfl, Or.inl ⟨rfl, rfl⟩⟩
    | failed c => exact ⟨_, rfl, Or.inr ⟨c, rfl⟩⟩
  have hacts : (m.transition p a).actions = [action] := by rw [htr]; rfl
  have hfx : (Effects.ofActions [action]).emittedTwice = false ∧ (Effects.ofActions [action]).emission = none ∧
      (Effects.ofActions [action]).releases = [] ∧ (Effects.ofActions [action]).policy = none := by
    rcases hact with ⟨-, rfl⟩ | ⟨c, rfl⟩ <;> simp [Effects.ofActions, Effects.add, Effects.empty]
  obtain ⟨hone, hem, hrel, hpol⟩ := hfx
  have ho := h.obeys (by rw [hacts]; exact hone)
  have hst := ho.stage
  have hstatus := ho.status (by rw [hacts]; exact hrel)
  have hmem : m'.memory = m.memory := ho.memory.trans (by rw [htr]; rfl)
  have hstate : m'.state = m.state := ho.state.trans (by rw [htr]; rfl)
  have he : m'.emissions = m.emissions := by
    rw [h.emissions, Transition.emission?, hacts, hone, hem]
    exact List.append_nil _
  rw [hacts] at hst
  have hsame : m'.Matched ∧ (m'.state = .readRight ↔ m'.memory.isSome = true) ∧ m'.policy = .eager :=
    ⟨hi.matched.of_eq hmem (h.handed_of_terminal ht) he, by rw [hstate, hmem]; exact hi.waiting,
      by rw [ho.policy, hacts, hpol]; exact hi.eager⟩
  obtain ⟨hmatch, hwait, heager⟩ := hsame
  rcases hact with ⟨rfl, rfl⟩ | ⟨c, rfl⟩
  · have hst : m'.stage = .settling true := hst
    have hv : m'.verdict? = none := verdict?_of_isFinal (by rw [hst]; rfl)
    refine ⟨hmatch, hwait, heager, fun _ hc => ?_,
      fun _ => ⟨p, (hstatus p).completed_iff.2 (if_pos rfl)⟩, fun h => ?_, fun _ h => ?_⟩
    · rw [hst] at hc
      cases hc
    · rw [hv] at h
      cases h
    · rw [hv] at h
      cases h
  · have hst : m'.stage = .ended (.error (.sourceFailed c)) := hst
    have hv : m'.verdict? = some (.error (.sourceFailed c)) := by unfold verdict?; rw [hst]
    refine ⟨hmatch, hwait, heager, fun hr => ?_, fun hc => ?_, fun h => ?_, fun _ h => ?_⟩
    · rw [hst] at hr
      cases hr
    · rw [hst] at hc
      cases hc
    · rw [hv] at h
      cases h
    · rw [hv] at h
      cases h

theorem Sided.before (h : m'.Sided) (hh : ∀ p, m.handed p <+: m'.handed p) : m.Sided :=
  ⟨fun e he => h.left e ((hh 0).subset he), fun e he => h.right e ((hh 1).subset he)⟩

theorem Paired.handles {p : InletId} {a : Arrival (Side α β)} (hi : m.Paired) (h : Handles m p a m')
    (hsided : m'.Sided) : m'.Paired := by
  cases ht : a.isTerminal with
  | true => exact hi.terminal h ht
  | false =>
    obtain ⟨e, rfl⟩ := Arrival.isTerminal_eq_false.1 ht
    exact hi.element h hsided

theorem paired_setUp {settings : Settings} {sources : List u.State}
    (h : setUp (zip α β) u settings sources = .ok m) (htwo : m.inlets.length = 2) : m.Paired := by
  have hfresh := setUp_fresh h
  obtain ⟨hm, hs, hp⟩ := setUp_start h
  have hmem : m.memory = none := by
    rw [hfresh.inlets, List.length_map] at htwo
    rw [hm, htwo]
    rfl
  have hv : m.verdict? = none := verdict?_of_isFinal (by rw [hfresh.stage]; rfl)
  refine ⟨⟨[], [], rfl, ?_, ?_, ?_⟩, by rw [hs, hmem]; simp, hp, fun _ _ p hlt => hfresh.status? hlt, fun hc => ?_,
    fun h => ?_, fun _ h => ?_⟩
  · unfold handed
    rw [hfresh.history, hmem]
    rfl
  · unfold handed
    rw [hfresh.history]
    rfl
  · unfold emissions
    rw [hfresh.history]
    rfl
  · rw [hfresh.stage] at hc
    cases hc
  · rw [hv] at h
    cases h
  · rw [hv] at h
    cases h

end

end Merge

/-! ## Pairing -/

variable {u : Source α} {v : Source β}

/-- What a session of pairing over sources with `as` and `bs` ahead delivers. -/
structure Session.Pairs (s : Session (Strategy.zip α β) (Source.sides u v)) (as : List α) (bs : List β) : Prop where
  /-- At every moment it is the beginning of the two lists in pairs. -/
  ordered : s.merge.sent <+: as.zip bs
  /-- No more of the sources is read than for two more pairs on the left and one on the right. -/
  left_ahead : (s.merge.yielded 0).length ≤ s.merge.emissions.length + 2
  right_ahead : (s.merge.yielded 1).length ≤ s.merge.emissions.length + 1
  /-- The right side is read exactly while a left element waits for its partner, -/
  waiting : s.merge.state = .readRight ↔ s.merge.memory.isSome = true
  /-- so that the run never breaks a rule. -/
  lawful : ∀ violation, s.merge.verdict? ≠ some (.error (.protocol violation))
  /-- A completed run has delivered all pairs, but for the last one if the end of the left source came while its last
  element was waiting. -/
  complete : s.merge.verdict? = some (.ok .completed) → s.merge.sent = as.zip bs ∨
    s.merge.status? 0 = some .completed ∧ ∃ a b, s.merge.memory = some a ∧ as.getLast? = some a ∧
      as.zip bs = s.merge.sent ++ [(a, b)]

namespace Session

variable {w : u.Forecast} {z : v.Forecast} {as : List α} {bs : List β}
variable {s : Session (Strategy.zip α β) (Source.sides u v)}

theorem Staged.paired (h : s.Staged (w.sides z) [as.map .left, bs.map .right]) : s.merge.Paired := by
  have hi : s.merge.Sided → s.merge.Paired := h.course (motive := fun m => m.Sided → m.Paired)
    (fun hm htwo _ => Merge.paired_setUp hm htwo)
    (fun h htwo hi hsided => (hi (hsided.before fun p => ⟨[], by rw [h.handed p, List.append_nil]⟩)).keeps htwo h)
    fun h _ hi hsided =>
      (hi (hsided.before fun k => by rw [h.handed]; exact List.prefix_append _ _)).handles h hsided
  obtain ⟨r₀, h₀, -⟩ := h.rest (p := 0) rfl
  obtain ⟨r₁, h₁, -⟩ := h.rest (p := 1) rfl
  refine hi ⟨fun e he => ?_, fun e he => ?_⟩
  · obtain ⟨x, -, hx⟩ := List.mem_map.1 (h₀ ▸ List.mem_append_left r₀ he)
    exact ⟨x, hx.symm⟩
  · obtain ⟨y, -, hy⟩ := List.mem_map.1 (h₁ ▸ List.mem_append_left r₁ he)
    exact ⟨y, hy.symm⟩

/-- What of the two lists was paired, what waits for its partner and what is left; nothing is left of a list that has
come to its end. -/
theorem Staged.matched (h : s.Staged (w.sides z) [as.map .left, bs.map .right]) : ∃ as' bs' r₀ r₁,
    as'.length = bs'.length ∧ s.merge.emissions = as'.zip bs' ∧
    (s.merge.handed 0).length = as'.length + s.merge.memory.toList.length ∧
    (s.merge.handed 1).length = bs'.length ∧
    as = as' ++ s.merge.memory.toList ++ r₀ ∧ bs = bs' ++ r₁ ∧
    (s.merge.status? 0 = some .completed → r₀ = []) ∧ (s.merge.status? 1 = some .completed → r₁ = []) := by
  obtain ⟨as', bs', hlen, h₀, h₁, hem⟩ := h.paired.matched
  obtain ⟨r₀, hr₀, hend₀⟩ := h.rest (p := 0) rfl
  obtain ⟨r₁, hr₁, hend₁⟩ := h.rest (p := 1) rfl
  rw [h₀] at hr₀
  rw [h₁] at hr₁
  obtain ⟨zs₀, has, rfl⟩ := Merge.append_of_map (fun _ _ h => Side.left.inj h) hr₀
  obtain ⟨zs₁, hbs, rfl⟩ := Merge.append_of_map (fun _ _ h => Side.right.inj h) hr₁
  exact ⟨as', bs', zs₀, zs₁, hlen, hem, by rw [h₀]; simp, by rw [h₁]; simp, has, hbs,
    fun hc => List.map_eq_nil_iff.1 (hend₀ _ hc (by simp) (by simp)),
    fun hc => List.map_eq_nil_iff.1 (hend₁ _ hc (by simp) (by simp))⟩

/-- **Pairing never mispairs.** For sources of every kind, whenever they are ready, and every order of moves. -/
theorem Staged.pairs (h : s.Staged (w.sides z) [as.map .left, bs.map .right]) : s.Pairs as bs := by
  obtain ⟨as', bs', r₀, r₁, hlen, hem, hh₀, hh₁, rfl, rfl, hend₀, hend₁⟩ := h.matched
  have hi := h.paired
  have hf := h.forthright
  have htwo : s.merge.inlets.length = 2 := h.count
  have hemitted : s.merge.emissions.length = as'.length := by simp [hem, hlen]
  have hzip : (as' ++ s.merge.memory.toList ++ r₀).zip (bs' ++ r₁) =
      s.merge.emissions ++ (s.merge.memory.toList ++ r₀).zip r₁ := by
    rw [List.append_assoc, List.zip_append hlen, hem]
  refine ⟨?_, ?_, ?_, hi.waiting, hi.lawful, fun hv => ?_⟩
  · rw [hzip]
    exact hf.sent_initial.trans (List.prefix_append _ _)
  · have hy := h.yielded_le (p := 0) (by simp)
    have hmem : s.merge.memory.toList.length ≤ 1 := by cases s.merge.memory <;> simp
    omega
  · have hy := h.yielded_le (p := 1) (by simp)
    omega
  · rw [hf.completed h.coherent hv, hzip]
    obtain ⟨p, hp⟩ := hi.ended hv
    have hlt : p < 2 := htwo ▸ Merge.isSome_status?.1 (by rw [hp]; rfl)
    obtain rfl | rfl := Nat.le_one_iff_eq_zero_or_eq_one.1 (Nat.le_of_lt_succ hlt)
    · obtain rfl := hend₀ hp
      cases hmem : s.merge.memory with
      | none => exact Or.inl (List.append_nil _).symm
      | some a =>
        cases r₁ with
        | nil => exact Or.inl (List.append_nil _).symm
        | cons b rest => exact Or.inr ⟨hp, a, b, rfl, by simp, rfl⟩
    · obtain rfl := hend₁ hp
      rw [List.zip_nil_right, List.append_nil]
      exact Or.inl rfl

/-- The left source ends while its last element waits for a partner that is late: the last pair is missing. -/
theorem pairs_scripted : ∃ m,
    Merge.setUp (Strategy.zip Nat Nat) (Source.sides (scripted Nat) (scripted Nat)) .standard
      [.inl (.ofList [1, 3]), .inr (.ofItems [.element 2, .pend 1, .element 4])] = .ok m ∧
    ((start m).play [.request 9, .poll 60, .poll 60]).Pairs [1, 3] [2, 4] ∧
    ((start m).play [.request 9, .poll 60, .poll 60]).merge.verdict? = some (.ok .completed) ∧
    ((start m).play [.request 9, .poll 60, .poll 60]).merge.sent = [(1, 2)] := by
  have hm : Merge.setUp (Strategy.zip Nat Nat) (Source.sides (scripted Nat) (scripted Nat)) .standard
      [.inl (.ofList [1, 3]), .inr (.ofItems [.element 2, .pend 1, .element 4])] = .ok _ := rfl
  refine ⟨_, hm, Staged.pairs (w := Script.forecast Nat) (z := Script.forecast Nat) (.play hm ?_ ?_), by decide,
    by decide⟩
  · exact .cons ⟨[1, 3], rfl, rfl⟩ (.cons ⟨[2, 4], rfl, rfl⟩ .nil)
  · simp [Source.Forecast.Spares]

end Session
end StreamMerge
