import Mathlib.Data.List.Forall2
import StreamMerge.Proofs.Lossless
import StreamMerge.Strategy.Pairing

/-!
# What the sources have ahead

A `Forecast` of a kind of source says which elements a source brings before it ends or fails. When it brings
them, how often it has nothing yet and what it does afterwards stay open, so that a forecast leaves room for every
timing. A merge that is `Supplied` has read from each source nothing but what was forecast for it, in order, and
all of it once the end or the failure of the source is there.
-/
namespace StreamMerge

variable {α β : Type} {L : Strategy α β} {u : Source α}

/-! ## Forecasts -/

/-- For every state of a source, the elements that it brings from there on before it ends or fails. -/
structure Source.Forecast (u : Source α) where
  ahead : u.State → List α → Prop
  element : ∀ {s x xs}, (u.poll s).reply = .element x → ahead s xs →
    ∃ rest, xs = x :: rest ∧ ahead (u.poll s).next rest
  pending : ∀ {s again xs}, (u.poll s).reply = .pending again → ahead s xs → ahead (u.poll s).next xs
  ended : ∀ {s xs}, (u.poll s).reply = .ended → ahead s xs → xs = []
  failed : ∀ {s c xs}, (u.poll s).reply = .failed c → ahead s xs → xs = []

/-- A source that is changed from outside brings the same elements as before. -/
def Source.Forecast.Spares (w : u.Forecast) : Move u → Prop
  | .adjust _ _ f => ∀ s xs, w.ahead s xs → w.ahead (f s) xs
  | _ => True

namespace Reply

variable {γ : Type} {f : α → γ} {r : Reply α}

theorem map_eq_element {y : γ} : r.map f = .element y ↔ ∃ x, r = .element x ∧ f x = y := by
  cases r <;> simp [map]

theorem map_eq_pending {again : Bool} : r.map f = .pending again ↔ r = .pending again := by
  cases r <;> simp [map]

theorem map_eq_ended : r.map f = .ended ↔ r = .ended := by
  cases r <;> simp [map]

theorem map_eq_failed {c : Cause} : r.map f = .failed c ↔ r = .failed c := by
  cases r <;> simp [map]

end Reply

/-- The forecast for two kinds of source as the two sides of a pairing. -/
def Source.Forecast.sides {v : Source β} (w : u.Forecast) (w' : v.Forecast) : (Source.sides u v).Forecast where
  ahead
    | .inl s, xs => ∃ as, xs = as.map .left ∧ w.ahead s as
    | .inr t, xs => ∃ bs, xs = bs.map .right ∧ w'.ahead t bs
  element := by
    rintro (s | t) x xs hr ⟨ys, rfl, ha⟩
    · obtain ⟨y, hy, rfl⟩ := Reply.map_eq_element.1 hr
      obtain ⟨rest, rfl, ha'⟩ := w.element hy ha
      exact ⟨rest.map .left, rfl, rest, rfl, ha'⟩
    · obtain ⟨y, hy, rfl⟩ := Reply.map_eq_element.1 hr
      obtain ⟨rest, rfl, ha'⟩ := w'.element hy ha
      exact ⟨rest.map .right, rfl, rest, rfl, ha'⟩
  pending := by
    rintro (s | t) again xs hr ⟨ys, rfl, ha⟩
    · exact ⟨ys, rfl, w.pending (Reply.map_eq_pending.1 hr) ha⟩
    · exact ⟨ys, rfl, w'.pending (Reply.map_eq_pending.1 hr) ha⟩
  ended := by
    rintro (s | t) xs hr ⟨ys, rfl, ha⟩
    · rw [w.ended (Reply.map_eq_ended.1 hr) ha, List.map_nil]
    · rw [w'.ended (Reply.map_eq_ended.1 hr) ha, List.map_nil]
  failed := by
    rintro (s | t) c xs hr ⟨ys, rfl, ha⟩
    · rw [w.failed (Reply.map_eq_failed.1 hr) ha, List.map_nil]
    · rw [w'.failed (Reply.map_eq_failed.1 hr) ha, List.map_nil]

/-- The elements of a script before its end or its first failure, if they are finitely many. -/
def Script.elements? : List (ScriptItem α) → Option (List α)
  | [] | .failure _ :: _ | .finish :: _ => some []
  | .element x :: rest => (elements? rest).map (x :: ·)
  | .forever _ :: _ => none
  | .pend _ :: rest | .gate :: rest | .cancel :: rest => elements? rest

/-- What an answer of a script says about its elements. -/
theorem Script.play_elements? : ∀ (items : List (ScriptItem α)) (permits cancels : Nat) {xs : List α},
    elements? items = some xs →
    match (play permits cancels items).reply with
      | .element x => ∃ rest, xs = x :: rest ∧ elements? (play permits cancels items).next.items = some rest
      | .pending _ => elements? (play permits cancels items).next.items = some xs
      | _ => xs = []
  | [], _, _, _, h => (Option.some.inj h).symm
  | .element x :: rest, _, _, xs, h => by
    obtain ⟨ys, hys, rfl⟩ := Option.map_eq_some_iff.1 h
    exact ⟨ys, rfl, hys⟩
  | .failure c :: rest, _, _, _, h => (Option.some.inj h).symm
  | .finish :: rest, _, _, _, h => (Option.some.inj h).symm
  | .pend 0 :: rest, permits, cancels, _, h => play_elements? rest permits cancels h
  | .pend (n + 1) :: rest, _, _, _, h => h
  | .gate :: rest, 0, _, _, h => h
  | .gate :: rest, permits + 1, cancels, _, h => play_elements? rest permits cancels h
  | .cancel :: rest, permits, cancels, _, h => play_elements? rest permits (cancels + 1) h

theorem Script.poll_elements? {s : Script α} {xs : List α} (h : elements? s.items = some xs) :
    match s.poll.reply with
      | .element x => ∃ rest, xs = x :: rest ∧ elements? s.poll.next.items = some rest
      | .pending _ => elements? s.poll.next.items = some xs
      | _ => xs = [] :=
  play_elements? s.items s.permits 0 h

/-- The forecast for scripts: their elements. -/
def Script.forecast (α : Type) : (scripted α).Forecast where
  ahead s xs := elements? s.items = some xs
  element hr ha := by
    have h := poll_elements? ha
    rw [show (poll _).reply = _ from hr] at h
    exact h
  pending hr ha := by
    have h := poll_elements? ha
    rw [show (poll _).reply = _ from hr] at h
    exact h
  ended hr ha := by
    have h := poll_elements? ha
    rw [show (poll _).reply = _ from hr] at h
    exact h
  failed hr ha := by
    have h := poll_elements? ha
    rw [show (poll _).reply = _ from hr] at h
    exact h

/-! ## Properties of accounts -/

/-- Working on an inlet keeps this property of its account. -/
def Account.Durable (P : InletId → Account u → Prop) : Prop :=
  ∀ (p : InletId) (c c' : Account u), P p c → c.Balanced → Work c c' → P p c'

/-- If this move changes a source from outside, then it keeps this property of the account. -/
def Move.Spares (P : InletId → Account u → Prop) : Move u → Prop
  | .adjust p _ f => ∀ (c : Account u) (s : u.State), P p c → c.inlet.source = some s →
      P p { c with inlet := { c.inlet with source := some (f s) } }
  | _ => True

/-- The accounts of all inlets have this property. -/
def Merge.EachAccount (P : InletId → Account u → Prop) (m : Merge L u) : Prop :=
  ∀ (p : InletId) (q : Inlet u), m.inlets[p]? = some q → P p (m.account p q)

theorem Merge.EachAccount.works {P : InletId → Account u → Prop} {m m' : Merge L u} (h : m.EachAccount P)
    (hP : Account.Durable P) (hb : m.Balanced) (hw : Works m m') : m'.EachAccount P := by
  intro p q' hq'
  obtain ⟨q, hq, hacts⟩ := hw p q' hq'
  have hstart := h p q hq
  have hbal := hb p q hq
  generalize m.account p q = c at hacts hstart hbal
  generalize m'.account p q' = c' at hacts
  suffices P p c' ∧ c'.Balanced from this.1
  induction hacts with
  | refl => exact ⟨hstart, hbal⟩
  | tail _ hwork ih => exact ⟨hP p _ _ ih.1 ih.2 hwork, ih.2.act hwork.act⟩

/-! ## Supply -/

/-- What an inlet with `xs` forecast for its source has read, and what it has ahead. -/
structure Account.Supplied (w : u.Forecast) (xs : List α) (c : Account u) : Prop where
  yielded : c.yielded <+: xs
  ahead : ∀ s, c.inlet.source = some s → c.inlet.hasTerminal = false →
    ∃ rest, xs = c.yielded ++ rest ∧ w.ahead s rest
  /-- With the end or the failure, everything is there. -/
  kept : c.inlet.hasTerminal = true → c.yielded = xs
  closed : c.inlet.isOpen = false → c.inlet.status ≠ .cancelled → c.yielded = xs

namespace Account

variable {w : u.Forecast} {xs : List α} {c c' : Account u}

theorem supplied_new {s : u.State} (h : w.ahead s xs) : (⟨Inlet.new s, [], []⟩ : Account u).Supplied w xs := by
  refine ⟨⟨xs, rfl⟩, fun s' hs _ => ⟨xs, rfl, ?_⟩, fun ht => (by cases ht), fun ho => (by cases ho)⟩
  cases hs
  exact h

theorem hasTerminal_store {q : Inlet u} (hb : q.buffer = none) (r : Polled α u.State) :
    (q.store r).hasTerminal = (Arrival.ofReply? r.reply).any (·.isTerminal) := by
  unfold Inlet.hasTerminal
  rw [Inlet.buffer_store hb]

theorem Supplied.fill (h : c.Supplied w xs) (hc : c.Balanced) {s : u.State} (hb : c.inlet.buffer = none)
    (hs : c.inlet.source = some s) :
    (⟨c.inlet.store (u.poll s), c.yielded ++ (u.poll s).reply.element?.toList, c.handed⟩ : Account u).Supplied
      w xs := by
  have ho : c.inlet.isOpen = true := by rw [← hc.sound.source_isSome, hs]; rfl
  have hopen : (c.inlet.store (u.poll s)).isOpen = false → False := by
    rw [Inlet.isOpen_store, ho]
    exact Bool.noConfusion
  have hkept := hasTerminal_store hb (u.poll s)
  obtain ⟨rest, hxs, ha⟩ := h.ahead s hs (by unfold Inlet.hasTerminal; rw [hb]; rfl)
  -- It remains to see what the answer does to what is ahead.
  suffices hgo : ∃ rest, xs = c.yielded ++ (u.poll s).reply.element?.toList ++ rest ∧
      ((Arrival.ofReply? (u.poll s).reply).any (·.isTerminal) = false → w.ahead (u.poll s).next rest) ∧
      ((Arrival.ofReply? (u.poll s).reply).any (·.isTerminal) = true → rest = []) by
    obtain ⟨rest', hxs', hgoes, hends⟩ := hgo
    refine ⟨⟨rest', hxs'.symm⟩, fun s' hs' ht => ⟨rest', hxs', ?_⟩, fun ht => ?_, fun hcl => (hopen hcl).elim⟩
    · rw [Inlet.source_store] at hs'
      exact Option.some.inj hs' ▸ hgoes (hkept.symm.trans ht)
    · rw [hxs', hends (hkept.symm.trans ht), List.append_nil]
  cases hr : (u.poll s).reply with
  | element x =>
    obtain ⟨rest', rfl, ha'⟩ := w.element hr ha
    exact ⟨rest', by rw [hxs]; simp [Reply.element?], fun _ => ha', fun ht => by cases ht⟩
  | pending again =>
    exact ⟨rest, by rw [hxs]; simp [Reply.element?], fun _ => w.pending hr ha, fun ht => by cases ht⟩
  | ended => exact ⟨[], by rw [hxs, w.ended hr ha]; simp [Reply.element?], fun ht => (by cases ht), fun _ => rfl⟩
  | failed cause =>
    exact ⟨[], by rw [hxs, w.failed hr ha]; simp [Reply.element?], fun ht => (by cases ht), fun _ => rfl⟩

theorem Supplied.take (h : c.Supplied w xs) :
    (⟨c.inlet.take.2, c.yielded, c.handed ++ c.inlet.kept.toList⟩ : Account u).Supplied w xs := by
  cases hb : c.inlet.buffer with
  | none =>
    rw [Inlet.take_of_empty hb]
    exact ⟨h.yielded, h.ahead, h.kept, h.closed⟩
  | some a =>
    cases ht : a.isTerminal with
    | false =>
      obtain ⟨x, rfl⟩ := Arrival.isTerminal_eq_false.1 ht
      have hn : c.inlet.hasTerminal = false := by unfold Inlet.hasTerminal; rw [hb]; rfl
      rw [Inlet.take_element hb]
      exact ⟨h.yielded, fun s hs _ => h.ahead s hs hn, fun hk => (by cases hk), h.closed⟩
    | true =>
      have hy : c.yielded = xs := h.kept (by unfold Inlet.hasTerminal; rw [hb]; exact ht)
      refine ⟨h.yielded, fun s hs => ?_, fun _ => hy, fun _ _ => hy⟩
      rw [Inlet.source_take_terminal hb ht] at hs
      cases hs

theorem Supplied.release (h : c.Supplied w xs) : ({ c with inlet := c.inlet.release.2 } : Account u).Supplied w xs := by
  refine ⟨h.yielded, fun s hs => (by cases hs), fun hk => (by cases hk), fun _ hn => ?_⟩
  have hn : c.inlet.release.2.status ≠ .cancelled := hn
  rw [Inlet.status_release] at hn
  by_cases ho : c.inlet.isOpen = true
  · rw [if_pos ho] at hn
    exact absurd rfl hn
  · rw [if_neg ho] at hn
    exact h.closed (eq_false_of_ne_true ho) hn

theorem Supplied.work (h : c.Supplied w xs) (hc : c.Balanced) (hw : Work c c') : c'.Supplied w xs := by
  cases hw with
  | fill s hb hs => exact h.fill hc hb hs
  | take => exact h.take
  | release => exact h.release

/-- What the strategy was handed is where the yield of the source begins. -/
theorem Balanced.handed_initial (h : c.Balanced) : c.handed <+: c.yielded := by
  by_cases hs : c.inlet.status = .cancelled
  · obtain ⟨lost, hl⟩ := h.released hs
    exact ⟨_, hl.symm⟩
  · exact ⟨_, (h.settled hs).symm⟩

/-- A source is at most one element ahead of the strategy. -/
theorem Balanced.yielded_le (h : c.Balanced) : c.yielded.length ≤ c.handed.length + 1 := by
  by_cases hs : c.inlet.status = .cancelled
  · obtain ⟨lost, hl⟩ := h.released hs
    rw [hl, List.length_append]
    cases lost <;> simp
  · rw [h.settled hs, List.length_append]
    cases c.inlet.kept <;> simp

/-- A change of the source that spares what it has ahead. -/
theorem Supplied.adjust (h : c.Supplied w xs) {s s' : u.State} (hs : c.inlet.source = some s)
    (hk : ∀ rest, w.ahead s rest → w.ahead s' rest) :
    ({ c with inlet := { c.inlet with source := some s' } } : Account u).Supplied w xs := by
  refine ⟨h.yielded, fun t ht hn => ?_, h.kept, h.closed⟩
  obtain ⟨rest, hxs, ha⟩ := h.ahead s hs hn
  exact ⟨rest, hxs, Option.some.inj ht ▸ hk rest ha⟩

/-- What `Supplied` says of the inlet `p`, if something is forecast for its source. -/
def SuppliedAt (w : u.Forecast) (forecasts : List (List α)) (p : InletId) (c : Account u) : Prop :=
  ∀ xs, forecasts[p]? = some xs → c.Supplied w xs

theorem durable_supplied {forecasts : List (List α)} : Durable (SuppliedAt w forecasts) :=
  fun _ _ _ h hc hw xs hxs => (h xs hxs).work hc hw

theorem spares_supplied {forecasts : List (List α)} {mv : Move u} (hk : w.Spares mv) :
    mv.Spares (SuppliedAt w forecasts) := by
  cases mv with
  | adjust p woken f => exact fun c s h hs xs hxs => (h xs hxs).adjust hs (hk s)
  | _ => exact trivial

end Account

namespace Merge

/-- Every inlet for whose source something is forecast is supplied. -/
def Supplied (w : u.Forecast) (forecasts : List (List α)) (m : Merge L u) : Prop :=
  ∀ (p : InletId) (q : Inlet u) (xs : List α), m.inlets[p]? = some q → forecasts[p]? = some xs →
    (m.account p q).Supplied w xs

theorem Fresh.supplied {w : u.Forecast} {forecasts : List (List α)} {m : Merge L u} {sources : List u.State}
    (h : Fresh m sources) (ha : List.Forall₂ w.ahead sources forecasts) : m.Supplied w forecasts := by
  intro p q xs hq hxs
  rw [h.inlets, List.getElem?_map] at hq
  obtain ⟨s, hs, rfl⟩ := Option.map_eq_some_iff.1 hq
  unfold account yielded handed
  rw [h.history]
  obtain ⟨hp, rfl⟩ := List.getElem?_eq_some_iff.1 hs
  obtain ⟨hp', rfl⟩ := List.getElem?_eq_some_iff.1 hxs
  exact Account.supplied_new (ha.get hp hp')

theorem works_advance : ∀ (fuel : Nat) (m : Merge L u), Works m (m.advance fuel)
  | 0, m => .of_eq rfl (.refl m)
  | fuel + 1, m => by
    unfold advance
    split
    · exact (step_spec m).works.trans (works_advance fuel m.step)
    · exact .of_eq rfl (.refl m)

theorem works_poll (fuel : Nat) (m : Merge L u) : Works m (m.poll fuel) := by
  unfold poll
  split
  · exact .of_eq rfl (.refl m)
  · have hrouse : Works m { m with awake := true, link := m.link.heed } := .of_eq rfl (.of_eq rfl)
    exact hrouse.trans (works_advance fuel _)

theorem works_abandon (m : Merge L u) : Works m m.abandon := by
  unfold abandon
  split
  · exact .of_eq rfl (.refl m)
  · have hend : Works m.releaseAll { m.releaseAll with
        stage := .abandoned, awake := false, link := m.releaseAll.link.detach } := .of_eq rfl (.of_eq rfl)
    exact (works_releaseAll m).trans hend

end Merge

namespace Session

/-- If work on an inlet keeps a property of its account, so does a move that spares it. -/
theorem eachAccount_perform {P : InletId → Account u → Prop} (hP : Account.Durable P) {s : Session L u} {mv : Move u}
    (h : s.merge.EachAccount P) (hb : s.merge.Balanced) (hk : mv.Spares P) : (s.perform mv).merge.EachAccount P := by
  cases s.performs mv with
  | link k hm _ =>
    rw [hm]
    exact h
  | source p woken f q state k hmv hq hs hm _ =>
    subst hmv
    rw [hm]
    intro p' q' hq'
    rw [List.getElem?_set] at hq'
    by_cases hp : p = p'
    · subst hp
      rw [if_pos rfl, if_pos (List.getElem?_eq_some_iff.1 hq).1] at hq'
      exact Option.some.inj hq' ▸ hk _ state (h p q hq) hs
    · rw [if_neg hp] at hq'
      exact h p' q' hq'
  | poll fuel hmv =>
    subst hmv
    exact h.works hP hb (Merge.works_poll fuel s.merge)
  | abandon hmv =>
    subst hmv
    exact h.works hP hb (Merge.works_abandon s.merge)

theorem eachAccount_play {P : InletId → Account u → Prop} (hP : Account.Durable P) :
    ∀ (moves : List (Move u)) (s : Session L u), s.merge.EachAccount P → s.merge.Balanced →
    (∀ mv ∈ moves, mv.Spares P) → (s.play moves).merge.EachAccount P
  | [], _, h, _, _ => h
  | mv :: moves, s, h, hb, hk =>
    eachAccount_play hP moves (s.perform mv) (eachAccount_perform hP h hb (hk mv (by simp)))
      (hb.acts (perform_changes s mv).acts) fun mv' hmv' => hk mv' (List.mem_cons_of_mem mv hmv')

/-- What becomes of a merge of sources with `forecasts` ahead when its session is played and nobody outside changes
what they have ahead. -/
inductive Staged (w : u.Forecast) (forecasts : List (List α)) : Session L u → Prop
  | play {settings : Settings} {sources : List u.State} {m : Merge L u} {moves : List (Move u)}
      (hm : Merge.setUp L u settings sources = .ok m) (ahead : List.Forall₂ w.ahead sources forecasts)
      (spared : ∀ mv ∈ moves, w.Spares mv) : Staged w forecasts ((start m).play moves)

namespace Staged

variable {w : u.Forecast} {forecasts : List (List α)} {s : Session L u}

/-- What holds of a merge as it is set up and is kept by every change of a balanced and coherent merge, holds after
every play. -/
theorem induction {motive : Merge L u → Prop} (h : s.Staged w forecasts)
    (start : ∀ {settings : Settings} {sources : List u.State} {m : Merge L u},
      Merge.setUp L u settings sources = .ok m → sources.length = forecasts.length → motive m)
    (change : ∀ {m m' : Merge L u}, Merge.Change m m' → m.Balanced → m.Coherent → motive m → motive m') :
    motive s.merge := by
  obtain ⟨hm, ahead, -⟩ := h
  exact Merge.play_invariant hm (start hm ahead.length_eq) change _

theorem balanced (h : s.Staged w forecasts) : s.merge.Balanced := by
  obtain ⟨hm, -, -⟩ := h
  exact Merge.play_balanced hm _

theorem coherent (h : s.Staged w forecasts) : s.merge.Coherent := by
  obtain ⟨hm, -, -⟩ := h
  exact Merge.play_coherent hm _

theorem supplied (h : s.Staged w forecasts) : s.merge.Supplied w forecasts := by
  obtain ⟨hm, ahead, spared⟩ := h
  have hfresh := Merge.setUp_fresh hm
  have hstart : Merge.EachAccount (Account.SuppliedAt w forecasts) (start _).merge :=
    fun p q hq xs hxs => hfresh.supplied ahead p q xs hq hxs
  have hplay := eachAccount_play Account.durable_supplied _ _ hstart hfresh.balanced
    fun mv hmv => Account.spares_supplied (spared mv hmv)
  exact fun p q xs hq hxs => hplay p q hq xs hxs

end Staged

end Session
end StreamMerge
