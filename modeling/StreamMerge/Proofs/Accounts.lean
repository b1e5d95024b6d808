import StreamMerge.Proofs.Runs

/-!
# Accounts of the inlets

An `Account` is an inlet together with what its source has yielded and what the strategy was handed of it. An
account only ever goes through the acts of `Account.Act`; they keep it `Balanced`, and they leave the account of
a closed inlet as it is. `Acts` carries this over to whole merges: every change of a merge is a row of acts for
each of its inlets.
-/
namespace StreamMerge

variable {α β : Type} {L : Strategy α β} {u : Source α}

open Relation (ReflTransGen)

/-! ## The acts of an account -/

/-- The element that an answer brings. -/
def Reply.element? : Reply α → Option α
  | .element x => some x
  | _ => none

/-- An inlet, what its source has yielded and what the strategy was handed of it. -/
structure Account (u : Source α) where
  inlet : Inlet u
  yielded : List α
  handed : List α

namespace Inlet

theorem kept_of_buffer {q : Inlet u} {a : Arrival α} (h : q.buffer = some a) (ht : a.isTerminal = true) :
    q.kept = none := by
  unfold kept
  rw [h]
  cases a with
  | element x => cases ht
  | completed => rfl
  | failed c => rfl

theorem kept_of_empty {q : Inlet u} (h : q.buffer = none) : q.kept = none := by
  unfold kept; rw [h]

theorem kept_store {q : Inlet u} (h : q.buffer = none) (r : Polled α u.State) :
    (q.store r).kept = r.reply.element? := by
  unfold kept
  rw [buffer_store h]
  cases r.reply <;> rfl

theorem take_of_empty {q : Inlet u} (h : q.buffer = none) : q.take.2 = q := by
  unfold take; rw [h]

/-- Taking an event leaves the source as it is, or gives it up. -/
theorem source_take (q : Inlet u) {s : u.State} (h : q.take.2.source = some s) : q.source = some s := by
  cases hb : q.buffer with
  | none =>
    rw [take_of_empty hb] at h
    exact h
  | some a =>
    cases ht : a.isTerminal with
    | true =>
      rw [source_take_terminal hb ht] at h
      cases h
    | false =>
      obtain ⟨x, rfl⟩ := Arrival.isTerminal_eq_false.1 ht
      rw [take_element hb] at h
      exact h

theorem kept_take (q : Inlet u) : q.take.2.kept = none := by
  cases h : q.buffer with
  | none => rw [take_of_empty h]; exact kept_of_empty h
  | some a => exact kept_of_empty (buffer_take h)

/-- A closed inlet keeps nothing and has no source. -/
theorem Sound.closed {q : Inlet u} (h : q.Sound) (hc : q.isOpen = false) :
    q.buffer = none ∧ q.source = none := by
  constructor
  · cases hb : q.buffer with
    | none => rfl
    | some a => exact absurd (h.isOpen_of_buffer (by rw [hb]; rfl)) (by simp [hc])
  · cases hs : q.source with
    | none => rfl
    | some s =>
      have := h.source_isSome
      rw [hs, hc] at this
      cases this

theorem status_ne_of_isOpen {q : Inlet u} (h : q.isOpen = true) : q.status ≠ .cancelled := by
  rw [isOpen_iff.1 h]; simp

end Inlet

namespace Account

/-- Everything that can happen to an account. -/
inductive Act : Account u → Account u → Prop
  | fill (c : Account u) (s : u.State) : c.inlet.buffer = none → c.inlet.source = some s →
      Act c ⟨c.inlet.store (u.poll s), c.yielded ++ (u.poll s).reply.element?.toList, c.handed⟩
  | take (c : Account u) : Act c ⟨c.inlet.take.2, c.yielded, c.handed ++ c.inlet.kept.toList⟩
  | release (c : Account u) : Act c { c with inlet := c.inlet.release.2 }
  | adjust (c : Account u) (s s' : u.State) : c.inlet.source = some s →
      Act c { c with inlet := { c.inlet with source := some s' } }

/-- What the merge itself does to an account: all that can happen but for a change of the source from outside. -/
inductive Work : Account u → Account u → Prop
  | fill (c : Account u) (s : u.State) : c.inlet.buffer = none → c.inlet.source = some s →
      Work c ⟨c.inlet.store (u.poll s), c.yielded ++ (u.poll s).reply.element?.toList, c.handed⟩
  | take (c : Account u) : Work c ⟨c.inlet.take.2, c.yielded, c.handed ++ c.inlet.kept.toList⟩
  | release (c : Account u) : Work c { c with inlet := c.inlet.release.2 }

theorem Work.act {c c' : Account u} (h : Work c c') : Act c c' := by
  cases h with
  | fill s hb hs => exact .fill c s hb hs
  | take => exact .take c
  | release => exact .release c

/-- The inlet is sound, and what was yielded is what was handed over, followed by what is kept; once the inlet
is released, one element at most is missing. -/
structure Balanced (c : Account u) : Prop where
  sound : c.inlet.Sound
  settled : c.inlet.status ≠ .cancelled → c.yielded = c.handed ++ c.inlet.kept.toList
  released : c.inlet.status = .cancelled → ∃ lost : Option α, c.yielded = c.handed ++ lost.toList

theorem balanced_new (s : u.State) : (⟨Inlet.new s, [], []⟩ : Account u).Balanced :=
  ⟨Inlet.sound_new s, fun _ => rfl, fun h => by cases h⟩

theorem Balanced.fill {c : Account u} (h : c.Balanced) {s : u.State} (hb : c.inlet.buffer = none)
    (hs : c.inlet.source = some s) :
    (⟨c.inlet.store (u.poll s), c.yielded ++ (u.poll s).reply.element?.toList, c.handed⟩ : Account u).Balanced := by
  have ho : c.inlet.isOpen = true := by rw [← h.sound.source_isSome, hs]; rfl
  have hn : c.inlet.status ≠ .cancelled := Inlet.status_ne_of_isOpen ho
  refine ⟨Inlet.sound_store h.sound hs _, fun _ => ?_, fun hc => absurd ((Inlet.status_store _ _).symm.trans hc) hn⟩
  show c.yielded ++ _ = c.handed ++ _
  rw [Inlet.kept_store hb, h.settled hn, Inlet.kept_of_empty hb, Option.toList_none, List.append_nil]

theorem Balanced.take {c : Account u} (h : c.Balanced) :
    (⟨c.inlet.take.2, c.yielded, c.handed ++ c.inlet.kept.toList⟩ : Account u).Balanced := by
  cases hb : c.inlet.buffer with
  | none =>
    rw [Inlet.take_of_empty hb, Inlet.kept_of_empty hb, Option.toList_none, List.append_nil]
    exact h
  | some a =>
    have ho : c.inlet.isOpen = true := h.sound.isOpen_of_buffer (by rw [hb]; rfl)
    have hn : c.inlet.status ≠ .cancelled := Inlet.status_ne_of_isOpen ho
    have hn' : c.inlet.take.2.status ≠ .cancelled := by
      cases a with
      | element x => rw [Inlet.take_element hb]; exact hn
      | completed => exact (Inlet.isOpen_take_terminal hb rfl).2
      | failed cause => exact (Inlet.isOpen_take_terminal hb rfl).2
    refine ⟨Inlet.sound_take h.sound, fun _ => ?_, fun hc => absurd hc hn'⟩
    show c.yielded = c.handed ++ c.inlet.kept.toList ++ _
    rw [Inlet.kept_take, Option.toList_none, List.append_nil]
    exact h.settled hn

theorem Balanced.release {c : Account u} (h : c.Balanced) :
    ({ c with inlet := c.inlet.release.2 } : Account u).Balanced := by
  refine ⟨Inlet.sound_release _, fun hn => ?_, fun hc => ?_⟩
  · have ho : c.inlet.isOpen = false := by
      refine eq_false_of_ne_true fun ho => hn ?_
      show c.inlet.release.2.status = _
      rw [Inlet.status_release, ho]
      rfl
    have hs : c.inlet.status ≠ .cancelled := by
      show c.inlet.status ≠ _
      have hn : c.inlet.release.2.status ≠ .cancelled := hn
      rw [Inlet.status_release, ho] at hn
      exact hn
    have hk := h.settled hs
    rw [Inlet.kept_of_empty (h.sound.closed ho).1] at hk
    exact hk
  · by_cases hs : c.inlet.status = .cancelled
    · exact h.released hs
    · exact ⟨c.inlet.kept, h.settled hs⟩

theorem Balanced.act {c c' : Account u} (h : c.Balanced) (ha : Act c c') : c'.Balanced := by
  cases ha with
  | fill s hb hs => exact h.fill hb hs
  | take => exact h.take
  | release => exact h.release
  | adjust s s' hs =>
    have ho := h.sound.source_isSome
    rw [hs] at ho
    exact ⟨⟨ho, h.sound.isOpen_of_buffer⟩, h.settled, h.released⟩

theorem Balanced.acts {c c' : Account u} (h : c.Balanced) (ha : ReflTransGen Act c c') : c'.Balanced := by
  induction ha with
  | refl => exact h
  | tail _ ha ih => exact ih.act ha

/-- The account of a closed inlet stays as it is, whatever happens. -/
theorem Balanced.act_closed {c c' : Account u} (h : c.Balanced) (hc : c.inlet.isOpen = false) (ha : Act c c') :
    c' = c := by
  obtain ⟨hb, hs⟩ := h.sound.closed hc
  cases ha with
  | fill s _ hs' => rw [hs] at hs'; cases hs'
  | take => rw [Inlet.take_of_empty hb, Inlet.kept_of_empty hb, Option.toList_none, List.append_nil]
  | release =>
    have ht : c.inlet.release.2.status = c.inlet.status := by rw [Inlet.status_release, hc]; rfl
    obtain ⟨⟨source, buffer, status, pulls⟩, yielded, handed⟩ := c
    cases hb
    cases hs
    exact congrArg (fun t => (⟨⟨none, none, t, pulls⟩, yielded, handed⟩ : Account u)) ht
  | adjust s s' hs' => rw [hs] at hs'; cases hs'

theorem Balanced.acts_closed {c c' : Account u} (h : c.Balanced) (hc : c.inlet.isOpen = false)
    (ha : ReflTransGen Act c c') : c' = c := by
  induction ha with
  | refl => rfl
  | tail _ ha ih => subst ih; exact h.act_closed hc ha

end Account

/-! ## The accounts of a merge -/

/-- An entry that says neither that a source yielded an element nor that the strategy was handed one. -/
def Entry.isUncounted : Entry L → Prop
  | .polled _ (.element _) | .onElement .. => False
  | _ => True

theorem Entry.yielded?_of_isUncounted {e : Entry L} (h : e.isUncounted) (p : InletId) : e.yielded? p = none := by
  cases e with
  | polled q r =>
    cases r with
    | element x => cases h
    | _ => rfl
  | _ => rfl

theorem Entry.handed?_of_isUncounted {e : Entry L} (h : e.isUncounted) (p : InletId) : e.handed? p = none := by
  cases e with
  | onElement => cases h
  | _ => rfl

namespace Merge

/-- The account of the inlet `q` with the number `p`. -/
def account (m : Merge L u) (p : InletId) (q : Inlet u) : Account u := ⟨q, m.yielded p, m.handed p⟩

/-- Every account of `m'` comes from the account of `m` with the same number by changes as `R` has them. -/
def Transforms (R : Account u → Account u → Prop) (m m' : Merge L u) : Prop :=
  ∀ (k : InletId) (q' : Inlet u), m'.inlets[k]? = some q' →
    ∃ q, m.inlets[k]? = some q ∧ ReflTransGen R (m.account k q) (m'.account k q')

/-- Every account of `m'` comes by acts from the account of `m` with the same number. -/
def Acts (m m' : Merge L u) : Prop := ∀ (k : InletId) (q' : Inlet u), m'.inlets[k]? = some q' →
  ∃ q, m.inlets[k]? = some q ∧ ReflTransGen Account.Act (m.account k q) (m'.account k q')

/-- Every account of `m'` comes by work of the merge from the account of `m` with the same number. -/
abbrev Works (m m' : Merge L u) : Prop := Transforms Account.Work m m'

section
variable {m m' m'' : Merge L u} {R : Account u → Account u → Prop}

theorem Transforms.trans (h : Transforms R m m') (h' : Transforms R m' m'') : Transforms R m m'' := by
  intro k q'' hq''
  obtain ⟨q', hq', ha'⟩ := h' k q'' hq''
  obtain ⟨q, hq, ha⟩ := h k q' hq'
  exact ⟨q, hq, ha.trans ha'⟩

theorem account_of_extends (h : Extends Entry.isUncounted m m') (p : InletId) (q : Inlet u) :
    m'.account p q = m.account p q := by
  have hy : m'.yielded p = m.yielded p := h.filterMap_eq fun _ he => Entry.yielded?_of_isUncounted he p
  have hh : m'.handed p = m.handed p := h.filterMap_eq fun _ he => Entry.handed?_of_isUncounted he p
  unfold account
  rw [hy, hh]

/-- No inlet changes. -/
theorem Transforms.of_eq (h : m'.inlets = m.inlets) (hx : Extends Entry.isUncounted m m') :
    Transforms R m m' := by
  intro k q' hq'
  rw [h] at hq'
  exact ⟨q', hq', by rw [account_of_extends hx]⟩

/-- The inlet `p` changes alone. -/
theorem Transforms.of_set {p : InletId} {q q' : Inlet u} (hq : m.inlets[p]? = some q)
    (h : m'.inlets = m.inlets.set p q') (ha : R (m.account p q) (m'.account p q'))
    (hx : ∀ k, k ≠ p → m'.yielded k = m.yielded k ∧ m'.handed k = m.handed k) : Transforms R m m' := by
  intro k q'' hq''
  rw [h, List.getElem?_set] at hq''
  by_cases hp : p = k
  · subst hp
    obtain ⟨hlt, -⟩ := List.getElem?_eq_some_iff.1 hq
    rw [if_pos rfl, if_pos hlt] at hq''
    exact ⟨q, hq, Option.some.inj hq'' ▸ .single ha⟩
  · rw [if_neg hp] at hq''
    obtain ⟨hy, hh⟩ := hx k (Ne.symm hp)
    exact ⟨q'', hq'', by unfold account; rw [hy, hh]⟩

/-- Some inlets are released. -/
theorem Works.of_released {P : InletId → Prop} [DecidablePred P]
    (h : ∀ k : InletId, m'.inlets[k]? = if P k then m.inlets[k]?.map (·.release.2) else m.inlets[k]?)
    (hx : Extends Entry.isUncounted m m') : Works m m' := by
  intro k q' hq'
  rw [account_of_extends hx]
  rw [h k] at hq'
  split at hq'
  · obtain ⟨q, hq, rfl⟩ := Option.map_eq_some_iff.1 hq'
    exact ⟨q, hq, .single (.release (m.account k q))⟩
  · exact ⟨q', hq', .refl⟩

theorem Works.acts (h : Works m m') : Acts m m' := by
  intro k q' hq'
  obtain ⟨q, hq, hw⟩ := h k q' hq'
  exact ⟨q, hq, hw.lift id fun _ _ h => h.act⟩

theorem Acts.trans (h : Acts m m') (h' : Acts m' m'') : Acts m m'' :=
  Transforms.trans (R := Account.Act) h h'

end

/-! ## What changes the accounts -/

theorem yielded_of_history {m m' : Merge L u} {es : List (Entry L)} (h : m'.history = m.history ++ es)
    (p : InletId) : m'.yielded p = m.yielded p ++ es.filterMap (Entry.yielded? p) := by
  rw [yielded, h, List.filterMap_append]
  rfl

theorem handed_of_history {m m' : Merge L u} {es : List (Entry L)} (h : m'.history = m.history ++ es)
    (p : InletId) : m'.handed p = m.handed p ++ es.filterMap (Entry.handed? p) := by
  rw [handed, h, List.filterMap_append]
  rfl

theorem filterMap_singleton {γ δ : Type} (f : γ → Option δ) (e : γ) : [e].filterMap f = (f e).toList := by
  cases h : f e <;> simp [h]

theorem yielded?_polled (k p : InletId) (r : Reply α) :
    (.polled p r : Entry L).yielded? k = if p = k then r.element? else none := by
  cases r <;> simp [Entry.yielded?, Reply.element?]

theorem works_fill (m : Merge L u) (p : InletId) : Works m (m.fill p) := by
  rcases fill_cases m p with h | ⟨q, s, h⟩
  · exact .of_eq (by rw [h]) (.of_eq (by rw [h]))
  · have hy : ∀ k, (m.fill p).yielded k =
        m.yielded k ++ (if p = k then (u.poll s).reply.element? else none).toList := by
      intro k
      rw [yielded_of_history h.history, List.filterMap_append, filterMap_singleton, yielded?_polled,
        List.filterMap_replicate_of_none rfl, List.nil_append]
    have hh : ∀ k, (m.fill p).handed k = m.handed k := by
      intro k
      rw [handed_of_history h.history, List.filterMap_append, List.filterMap_replicate_of_none rfl]
      exact List.append_nil _
    refine .of_set h.here h.inlets ?_ fun k hk => ⟨?_, hh k⟩
    · have ha := Account.Work.fill (m.account p q) s h.empty h.source
      unfold account at ha ⊢
      rw [hy, hh, if_pos rfl]
      exact ha
    · rw [hy, if_neg (Ne.symm hk), Option.toList_none, List.append_nil]

theorem works_seek (m : Merge L u) (order : List InletId) : Works m (m.seek order).2 :=
  seek_induction (motive := Works m) (fun _ p h => h.trans (works_fill _ p)) m order (.of_eq rfl (.refl m))

theorem isUncounted_of_isClosing {e : Entry L} (h : isClosing e) : e.isUncounted := by
  cases e <;> first | exact trivial | cases h

/-- The strategy is handed an element exactly when that is what arrived. -/
theorem handed?_handling (m : Merge L u) (k p : InletId) {q : Inlet u} {a : Arrival α} (ha : q.buffer = some a)
    (next : L.State) : (m.handling p a next).toList.filterMap (Entry.handed? k) =
      (if p = k then q.kept else none).toList := by
  unfold Inlet.kept
  rw [ha]
  cases a with
  | element x =>
    show [_].filterMap _ = _
    rw [filterMap_singleton]
    rfl
  | completed => unfold handling; cases m.policy <;> simp [Entry.handed?]
  | failed c => unfold handling; cases m.policy <;> simp [Entry.handed?]

theorem yielded?_handling (m : Merge L u) (k p : InletId) (a : Arrival α) (next : L.State) :
    (m.handling p a next).toList.filterMap (Entry.yielded? k) = [] := by
  refine List.filterMap_eq_nil_iff.2 fun e he => ?_
  have := isCall_handling he
  cases e <;> first | rfl | cases this

/-- Taking what an inlet keeps and handing it over is one act of the inlet. -/
theorem works_take (m : Merge L u) (choice : Choice) {p : InletId} {q : Inlet u} {a : Arrival α}
    (hq : m.inlets[p]? = some q) (ha : q.buffer = some a) :
    Works m ((m.putInlet p q.take.2).accept choice p a) := by
  have h := accept_spec (m.putInlet p q.take.2) choice p a
  obtain ⟨rs, hrs, hlog⟩ := h.history
  obtain ⟨ds, hds, hdrop⟩ := extends_putInlet m p q.take.2
  rw [hds, List.append_assoc] at hrs
  have hy : ∀ k, ((m.putInlet p q.take.2).accept choice p a).yielded k = m.yielded k := by
    intro k
    have hds : ds.filterMap (Entry.yielded? k) = [] :=
      List.filterMap_eq_nil_iff.2 fun e he => by rw [hdrop e he]; rfl
    have hrs' : rs.filterMap (Entry.yielded? k) = [] :=
      List.filterMap_eq_nil_iff.2 fun e he => by obtain ⟨r, rfl⟩ := hlog e he; rfl
    rw [yielded_of_history hrs, List.filterMap_append, hds, List.filterMap_cons_none rfl, List.filterMap_append,
      yielded?_handling, hrs']
    exact List.append_nil _
  have hh : ∀ k, ((m.putInlet p q.take.2).accept choice p a).handed k =
      m.handed k ++ (if p = k then q.kept else none).toList := by
    intro k
    have hds : ds.filterMap (Entry.handed? k) = [] :=
      List.filterMap_eq_nil_iff.2 fun e he => by rw [hdrop e he]; rfl
    have hrs' : rs.filterMap (Entry.handed? k) = [] :=
      List.filterMap_eq_nil_iff.2 fun e he => by obtain ⟨r, rfl⟩ := hlog e he; rfl
    rw [handed_of_history hrs, List.filterMap_append, hds, List.filterMap_cons_none rfl, List.filterMap_append,
      handed?_handling _ k p ha, hrs', List.nil_append, List.append_nil]
  refine .of_set hq (h.inlets.trans (inlets_putInlet m p q.take.2)) ?_ fun k hk => ⟨hy k, ?_⟩
  · have hact := Account.Work.take (m.account p q)
    unfold account at hact ⊢
    rw [hy, hh, if_pos rfl]
    exact hact
  · rw [hh, if_neg (Ne.symm hk), Option.toList_none, List.append_nil]

theorem works_finish (m : Merge L u) (v : Verdict) : Works m (m.finish v) :=
  .of_released (P := fun _ => True) (fun k => (finish_spec m v).inlet k)
    ((finish_spec m v).history.mono fun _ => isUncounted_of_isClosing)

theorem extends_log (m : Merge L u) (r : Record) : Extends Entry.isUncounted m (m.log r) :=
  extends_note m (e := .logged r) trivial

theorem works_close (m : Merge L u) (closing : Option Closing) : Works m (m.close closing) := by
  unfold close
  split
  · exact .of_eq rfl (.of_eq rfl)
  · exact .of_eq rfl (.of_eq rfl)
  · exact works_finish _ _

theorem works_settled (m : Merge L u) (fx : Effects β L.Key) (next : L.State) : Works m (m.settled fx next) := by
  have hs := settled_spec m fx next
  obtain ⟨rs, hrs, hok⟩ := hs.history
  refine .of_released hs.inlet ⟨_, hrs, fun e he => ?_⟩
  rcases List.mem_append.1 he with he | he
  · exact isUncounted_of_isClosing (isClosing_of_isRelease (hok e he))
  · obtain ⟨y, -, rfl⟩ := Option.map_eq_some_iff.1 (Option.mem_toList.1 he)
    trivial

theorem works_apply (m : Merge L u) (p : InletId) (fx : Effects β L.Key) (next : L.State) :
    Works m (m.apply p fx next) := by
  rw [apply_eq]
  split
  · have h : Works m (m.log (.violated .emittedTwice p (L.showState m.state))) := .of_eq rfl (extends_log m _)
    exact h.trans (works_finish _ _)
  · exact (works_settled m fx next).trans (works_close _ _)

/-! ## Steps and changes -/

theorem Ends.inlets {m m' : Merge L u} {v : Verdict} (h : Ends m m' v) : m'.inlets = m.inlets := by
  cases h <;> rfl

theorem Ends.extends {m m' : Merge L u} {v : Verdict} (h : Ends m m' v) : Extends Entry.isUncounted m m' := by
  cases h with
  | withdrawn rest =>
    exact extends_note ({ m with link := { m.link with signals := rest } }) (e := .took .cancel) trivial
  | stuck => exact extends_log m _
  | _ => exact .of_eq rfl

theorem Tries.works {m m' : Merge L u} (h : Tries m m') : Works m m' := by
  cases h with
  | waits choice order => exact (works_seek m order).trans (.of_eq rfl (.of_eq rfl))
  | accepts choice order p a q _ _ hq ha =>
    rw [dispatch_eq]
    exact (works_seek m order).trans ((works_take _ choice hq ha).trans (works_apply _ _ _ _))

theorem Step.works {m m' : Merge L u} (h : Step m m') : Works m m' := by
  cases h with
  | opens => exact .of_eq rfl ((extends_log m _).trans (extends_log _ _))
  | turns => exact .of_eq rfl (.of_eq rfl)
  | starves => exact .of_eq rfl (.of_eq rfl)
  | hears n rest => exact .of_eq rfl (extends_note _ (e := .took (.request n)) trivial)
  | delivers closing y _ _ _ hr =>
    have hd := delivered_spec closing y hr
    exact .of_eq hd.inlets (hd.extends_of _ trivial)
  | tries m' _ _ h => exact h.works
  | ends m' v h => exact (Transforms.of_eq h.inlets h.extends).trans (works_finish m' v)
  | rests => exact .of_eq rfl (.refl m)

theorem Step.acts {m m' : Merge L u} (h : Step m m') : Acts m m' := h.works.acts

theorem works_releaseAll (m : Merge L u) : Works m m.releaseAll :=
  .of_released (P := fun _ => True) (getElem?_releaseAll m)
    ((extends_releaseAll m).mono fun _ ⟨_, he⟩ => he ▸ trivial)

theorem Change.acts {m m' : Merge L u} (h : Change m m') : Acts m m' := by
  cases h with
  | step => exact (step_spec m).acts
  | rouse => exact Transforms.of_eq (R := Account.Act) rfl (.of_eq rfl)
  | relink => exact Transforms.of_eq (R := Account.Act) rfl (.of_eq rfl)
  | adjust p q s s' hq hs =>
    exact Transforms.of_set (R := Account.Act) hq rfl (.adjust (m.account p q) s s' hs) fun _ _ => ⟨rfl, rfl⟩
  | abandon => exact (works_releaseAll m).acts

theorem Changes.acts {m m' : Merge L u} (h : Changes m m') : Acts m m' :=
  h.induction (motive := Acts m) (fun _ _ hc ih => ih.trans hc.acts)
    (Transforms.of_eq (R := Account.Act) rfl (.refl m))

/-! ## Balance -/

/-- All accounts are balanced. -/
def Balanced (m : Merge L u) : Prop :=
  ∀ (p : InletId) (q : Inlet u), m.inlets[p]? = some q → (m.account p q).Balanced

theorem Balanced.acts {m m' : Merge L u} (h : m.Balanced) (ha : Acts m m') : m'.Balanced := by
  intro k q' hq'
  obtain ⟨q, hq, ha⟩ := ha k q' hq'
  exact (h k q hq).acts ha

theorem Fresh.balanced {m : Merge L u} {sources : List u.State} (h : Fresh m sources) : m.Balanced := by
  intro k q hq
  rw [h.inlets, List.getElem?_map] at hq
  obtain ⟨s, -, rfl⟩ := Option.map_eq_some_iff.1 hq
  unfold account yielded handed
  rw [h.history]
  exact Account.balanced_new s

/-- A closed inlet stays closed. -/
theorem Balanced.closed_acts {m m' : Merge L u} (h : m.Balanced) (ha : Acts m m') {p : InletId}
    (hc : m.inletIs p (·.isOpen) = false) : m'.inletIs p (·.isOpen) = false := by
  refine eq_false_of_ne_true fun ho => ?_
  obtain ⟨q', hq', ho⟩ := inletIs_iff.1 ho
  obtain ⟨q, hq, ha⟩ := ha p q' hq'
  rw [inletIs_iff_of_some hq] at hc
  have he : q' = q := congrArg Account.inlet ((h p q hq).acts_closed hc ha)
  rw [he, hc] at ho
  cases ho

end Merge
end StreamMerge
