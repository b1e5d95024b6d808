import StreamMerge.Proofs.Accounts

/-!
# Events in the history

What a step writes to the journal. Most steps write nothing about events; a step that makes an attempt writes
what it read, and then, if it found an event, that the event arrived, the call of the strategy and what came of
it. From this follow the rules about events: only an open inlet brings any (`Step.extends_concerns`), and its
end or failure is the last one (`LastWord`).
-/
namespace StreamMerge

variable {α β : Type} {L : Strategy α β} {u : Source α}

/-! ## Kinds of entries -/

namespace Entry

/-- An entry about a signal, a released inlet, a delivery or the log. -/
def isSideline : Entry L → Prop
  | .took _ | .dropped _ | .delivered _ | .logged _ => True
  | _ => False

/-- An entry that a transition can lead to. -/
def isOutcome : Entry L → Prop
  | .emitted _ | .dropped _ | .delivered _ | .logged _ => True
  | _ => False

/-- The strategy is called about the end or a failure of `p`. -/
def isLastCall (p : InletId) : Entry L → Prop
  | .onEnd q _ _ _ | .onFailure q _ _ _ _ => q = p
  | _ => False

theorem isSideline_of_isClosing {e : Entry L} (h : Merge.isClosing e) : e.isSideline := by
  cases e <;> first | exact trivial | cases h

theorem isOutcome_of_isClosing {e : Entry L} (h : Merge.isClosing e) : e.isOutcome := by
  cases e <;> first | exact trivial | cases h

theorem not_concerns_of_isSideline {e : Entry L} (h : e.isSideline) (p : InletId) : ¬ e.concerns p := by
  cases e <;> first | exact id | cases h

theorem not_concerns_of_isOutcome {e : Entry L} (h : e.isOutcome) (p : InletId) : ¬ e.concerns p := by
  cases e <;> first | exact id | cases h

theorem not_concerns_of_isReading {e : Entry L} (h : Merge.isReading e) (p : InletId) : ¬ e.concerns p := by
  cases e <;> first | exact id | cases h

theorem not_isArrival_of_isSideline {e : Entry L} (h : e.isSideline) : ¬ e.isArrival := by
  cases e <;> first | exact id | cases h

theorem not_isArrival_of_isOutcome {e : Entry L} (h : e.isOutcome) : ¬ e.isArrival := by
  cases e <;> first | exact id | cases h

theorem not_isArrival_of_isCall {e : Entry L} (h : Merge.isCall e) : ¬ e.isArrival := by
  cases e <;> first | exact id | cases h

theorem not_isArrival_of_isReading {e : Entry L} (h : Merge.isReading e) : ¬ e.isArrival := by
  cases e <;> first | exact id | cases h

theorem not_isPoll_of_isSideline {e : Entry L} (h : e.isSideline) : ¬ e.isPoll := by
  cases e <;> first | exact id | cases h

theorem not_isPoll_of_isOutcome {e : Entry L} (h : e.isOutcome) : ¬ e.isPoll := by
  cases e <;> first | exact id | cases h

theorem not_isPoll_of_isCall {e : Entry L} (h : Merge.isCall e) : ¬ e.isPoll := by
  cases e <;> first | exact id | cases h

end Entry

/-- The element that a transition emits, unless it breaks the rule of one emission. -/
def Transition.emission? {K S M : Type} (t : Transition β K S M) : Option β :=
  if (Effects.ofActions t.actions).emittedTwice then none else (Effects.ofActions t.actions).emission

namespace Merge

/-! ## What a dispatch writes -/

theorem extends_close (m : Merge L u) (closing : Option Closing) : Extends isClosing m (m.close closing) := by
  unfold close
  split
  · exact .of_eq rfl
  · exact .of_eq rfl
  · exact (finish_spec m _).history

/-- What a transition leads to: whatever it is, and the element that is emitted. -/
theorem history_apply (m : Merge L u) (p : InletId) (t : Transition β L.Key L.State L.Memory) :
    ∃ rs, (m.apply p (.ofActions t.actions) t.next).history = m.history ++ rs ∧ (∀ e ∈ rs, e.isOutcome) ∧
      rs.filterMap Entry.emitted? = t.emission?.toList := by
  have hquiet : ∀ rs : List (Entry L), (∀ e ∈ rs, isClosing e) → rs.filterMap Entry.emitted? = [] := by
    refine fun rs h => List.filterMap_eq_nil_iff.2 fun e he => ?_
    have := h e he
    cases e <;> first | rfl | cases this
  unfold Transition.emission?
  rw [apply_eq]
  split
  · obtain ⟨rs, hrs, hok⟩ := (finish_spec (m.log (.violated .emittedTwice p (L.showState m.state)))
      (.error (.protocol .emittedTwice))).history
    refine ⟨.logged (.violated .emittedTwice p (L.showState m.state)) :: rs,
      by rw [hrs, history_log, List.append_assoc]; rfl, fun e he => ?_, (hquiet _ fun e he => ?_)⟩
    · rcases List.mem_cons.1 he with rfl | he
      · trivial
      · exact Entry.isOutcome_of_isClosing (hok e he)
    · rcases List.mem_cons.1 he with rfl | he
      · trivial
      · exact hok e he
  · obtain ⟨rs, hrs, hok⟩ := (settled_spec m (.ofActions t.actions) t.next).history
    obtain ⟨rs', hrs', hok'⟩ := extends_close (m.settled (.ofActions t.actions) t.next)
      (Effects.ofActions t.actions).closing
    refine ⟨rs ++ ((Effects.ofActions t.actions).emission.map .emitted).toList ++ rs',
      by rw [hrs', hrs, List.append_assoc], fun e he => ?_, ?_⟩
    · rcases List.mem_append.1 he with he | he
      · rcases List.mem_append.1 he with he | he
        · exact Entry.isOutcome_of_isClosing (isClosing_of_isRelease (hok e he))
        · obtain ⟨y, -, rfl⟩ := Option.map_eq_some_iff.1 (Option.mem_toList.1 he)
          trivial
      · exact Entry.isOutcome_of_isClosing (hok' e he)
    · rw [List.filterMap_append, List.filterMap_append,
        hquiet rs fun e he => isClosing_of_isRelease (hok e he), hquiet rs' hok']
      cases (Effects.ofActions t.actions).emission <;> simp [Entry.emitted?]

theorem Frame.transition {m m' : Merge L u} (h : Frame m m') (p : InletId) (a : Arrival α) :
    m'.transition p a = m.transition p a := by
  unfold Merge.transition remain
  rw [h.policy, h.memory, h.state, h.count]

theorem Frame.handling {m m' : Merge L u} (h : Frame m m') (p : InletId) (a : Arrival α) (next : L.State) :
    m'.handling p a next = m.handling p a next := by
  unfold Merge.handling
  rw [h.policy, h.state]

/-- A dispatch writes that the event arrives, the call of the strategy, and what comes of it. -/
theorem history_dispatch (m : Merge L u) (choice : Choice) (p : InletId) (a : Arrival α) :
    ∃ rs, (m.dispatch choice p a).history = m.history ++
        .arrived choice p a :: ((m.handling p a (m.transition p a).next).toList ++ rs) ∧
      (∀ e ∈ rs, e.isOutcome) ∧ rs.filterMap Entry.emitted? = (m.transition p a).emission?.toList := by
  obtain ⟨ls, hls, hlog⟩ := (accept_spec m choice p a).history
  rw [dispatch_eq]
  obtain ⟨rs, hrs, hok, hem⟩ := history_apply (m.accept choice p a) p (m.transition p a)
  refine ⟨ls ++ rs, by rw [hrs, hls]; simp, fun e he => ?_, ?_⟩
  · rcases List.mem_append.1 he with he | he
    · obtain ⟨r, rfl⟩ := hlog e he
      trivial
    · exact hok e he
  · have hnone : ls.filterMap Entry.emitted? = [] :=
      List.filterMap_eq_nil_iff.2 fun e he => by obtain ⟨r, rfl⟩ := hlog e he; rfl
    rw [List.filterMap_append, hnone, List.nil_append, hem]

theorem core_close (m : Merge L u) (closing : Option Closing) : (m.close closing).core = m.core := by
  unfold close
  split
  · rfl
  · rfl
  · rename_i e
    exact (finish_spec m (.error e)).core

/-- What a dispatch makes of the figures of a run: it keeps what its transition emits for delivery, takes no
credit, and lets an element move the rotation on. -/
structure Dispatched (m : Merge L u) (choice : Choice) (p : InletId) (a : Arrival α) (m' : Merge L u) : Prop where
  unsent : m'.unsent = ((m.transition p a).emission? <|> m.unsent)
  credit : m'.credit = m.credit
  turn : m'.turn = if !a.isTerminal && choice.advances p then p + 1 else m.turn

theorem dispatched (m : Merge L u) (choice : Choice) (p : InletId) (a : Arrival α) :
    Dispatched m choice p a (m.dispatch choice p a) := by
  have h := accept_spec m choice p a
  rw [dispatch_eq, apply_eq]
  by_cases htwice : (Effects.ofActions (m.transition p a).actions).emittedTwice = true
  · have hcore := (finish_spec ((m.accept choice p a).log (.violated .emittedTwice p
      (L.showState (m.accept choice p a).state))) (.error (.protocol .emittedTwice))).core
    rw [if_pos htwice]
    refine ⟨(unsent_of_core hcore).trans (h.unsent.trans ?_), (credit_of_core hcore).trans h.credit,
      (turn_of_core hcore).trans h.turn⟩
    unfold Transition.emission?
    rw [if_pos htwice]
    simp
  · have hs := settled_spec (m.accept choice p a) (.ofActions (m.transition p a).actions) (m.transition p a).next
    have hcore := core_close ((m.accept choice p a).settled (.ofActions (m.transition p a).actions)
      (m.transition p a).next) (Effects.ofActions (m.transition p a).actions).closing
    rw [if_neg htwice]
    refine ⟨(unsent_of_core hcore).trans (hs.unsent.trans ?_),
      (credit_of_core hcore).trans (hs.credit.trans h.credit),
      (turn_of_core hcore).trans (hs.turn.trans h.turn)⟩
    unfold Transition.emission?
    rw [if_neg htwice, h.unsent]

/-! ## What a step writes -/

theorem Ends.sideline {m m' : Merge L u} {v : Verdict} (h : Ends m m' v) : Extends Entry.isSideline m m' := by
  cases h with
  | withdrawn rest =>
    exact extends_note ({ m with link := { m.link with signals := rest } }) (e := .took .cancel) trivial
  | stuck => exact extends_note m (e := .logged _) trivial
  | _ => exact .of_eq rfl

/-- What a step does that makes no attempt: it writes nothing about events. -/
structure Aside (m m' : Merge L u) : Prop where
  history : Extends Entry.isSideline m m'
  turn : m'.turn = m.turn
  unsent : m'.unsent = m.unsent ∨ m'.unsent = none

theorem Step.aside_or_tries {m m' : Merge L u} (h : Step m m') : Aside m m' ∨ Tries m m' := by
  cases h with
  | opens => exact Or.inl ⟨extends_opening Entry.isSideline m trivial trivial, rfl, Or.inl rfl⟩
  | turns => exact Or.inl ⟨.of_eq rfl, rfl, Or.inl rfl⟩
  | starves => exact Or.inl ⟨.of_eq rfl, rfl, Or.inl rfl⟩
  | hears n => exact Or.inl ⟨extends_note _ (e := .took (.request n)) trivial, rfl, Or.inl rfl⟩
  | delivers closing y _ _ _ hr =>
    have hd := delivered_spec closing y hr
    exact Or.inl ⟨hd.extends_of _ trivial, congrArg Core.turn hd.core, Or.inr hd.unsent⟩
  | tries m' _ _ h => exact Or.inr h
  | ends m₁ v h =>
    have hf := finish_spec m₁ v
    refine Or.inl ⟨h.sideline.trans (hf.history.mono fun _ => Entry.isSideline_of_isClosing),
      (turn_of_core hf.core).trans ?_, ?_⟩
    · show m₁.turn = m.turn
      cases h <;> rfl
    · rw [show (m₁.finish v).unsent = m₁.unsent from unsent_of_core hf.core]
      cases h with
      | undeliverable => exact Or.inr rfl
      | _ => exact Or.inl rfl
  | rests => exact Or.inl ⟨.refl m, rfl, Or.inl rfl⟩

theorem Tries.extends {m m' : Merge L u} (h : Tries m m') : Extends (fun _ => True) m m' := by
  cases h with
  | waits choice order => exact (extends_seek m order).mono fun _ _ => trivial
  | accepts choice order p a q =>
    obtain ⟨rs, hrs, -⟩ := history_dispatch ((m.seek order).2.putInlet p q.take.2) choice p a
    have hx := ((extends_seek m order).mono fun _ _ => trivial).trans
      ((extends_putInlet (m.seek order).2 p q.take.2).mono fun _ _ => trivial)
    exact hx.trans ⟨_, hrs, fun _ _ => trivial⟩

/-- A step only writes more into the journal. -/
theorem Step.extends {m m' : Merge L u} (h : Step m m') : Extends (fun _ => True) m m' := by
  rcases h.aside_or_tries with ha | ht
  · exact ha.history.mono fun _ _ => trivial
  · exact ht.extends

/-- A step takes up the event `a` of `p` under `choice`, after having written `reads`; `outcome` is what it writes
after the call of the strategy. -/
structure Serves (m : Merge L u) (choice : Choice) (p : InletId) (a : Arrival α) (reads outcome : List (Entry L))
    (m' : Merge L u) : Prop where
  history : m'.history = m.history ++ reads ++
    .arrived choice p a :: ((m.handling p a (m.transition p a).next).toList ++ outcome)
  isRead : ∀ e ∈ reads, isReading e ∨ e = .dropped p
  isOutcome : ∀ e ∈ outcome, e.isOutcome
  emitted : outcome.filterMap Entry.emitted? = (m.transition p a).emission?.toList
  unsent : m'.unsent = ((m.transition p a).emission? <|> m.unsent)
  credit : m'.credit = m.credit
  isOpen : m.inletIs p (·.isOpen) = true
  turn : m'.turn = if !a.isTerminal && choice.advances p then p + 1 else m.turn
  found : ∃ order q, m.stage = .attempting choice order ∧ (m.seek order).1 = some p ∧
    (m.seek order).2.inlets[p]? = some q ∧ q.buffer = some a ∧
    (a.isTerminal = false → (m.seek order).2.history = m.history ++ reads)
  caughtUp : a.isTerminal = true →
    (m.history ++ reads).filterMap (Entry.yielded? p) = (m.history ++ reads).filterMap (Entry.handed? p)
  closed : a.isTerminal = true → m'.inletIs p (·.isOpen) = false
  broken : (Effects.ofActions (m.transition p a).actions).emittedTwice = true →
    m'.verdict? = some (.error (.protocol .emittedTwice))

theorem mem_of_seek {m : Merge L u} {order : List InletId} {p : InletId} {a : Arrival α} {q : Inlet u}
    (hp : (m.seek order).1 = some p) (hq : (m.seek order).2.inlets[p]? = some q) (ha : q.buffer = some a)
    (ht : a.isTerminal = false) : p ∈ order := by
  obtain ⟨q', a', hq', ha', hn⟩ := seek_some hp
  obtain rfl := Option.some.inj (hq.symm.trans hq')
  obtain rfl := Option.some.inj (ha.symm.trans ha')
  exact hn ht

/-- Taking an event that was found and handling it serves its inlet. -/
theorem serves_of_found {m : Merge L u} (hm : m.Balanced) {choice : Choice} {order : List InletId} {p : InletId}
    {a : Arrival α} {q : Inlet u} (hst : m.stage = .attempting choice order)
    (hp : (m.seek order).1 = some p) (hq : (m.seek order).2.inlets[p]? = some q) (ha : q.buffer = some a) :
    ∃ reads outcome, Serves m choice p a reads outcome
      (((m.seek order).2.putInlet p q.take.2).dispatch choice p a) := by
  obtain ⟨rd, hrd, hread⟩ := extends_seek m order
  obtain ⟨ds, hds, hdrop⟩ := extends_putInlet (m.seek order).2 p q.take.2
  obtain ⟨rs, hh, hout, hem⟩ := history_dispatch ((m.seek order).2.putInlet p q.take.2) choice p a
  have hf := (frame_seek m order).trans (frame_putInlet _ p q.take.2)
  have hb : (m.seek order).2.Balanced := hm.acts (works_seek m order).acts
  have ho : q.isOpen = true := (hb p q hq).sound.isOpen_of_buffer (by
    show q.buffer.isSome = true
    rw [ha]
    rfl)
  rw [hf.transition, hf.handling, hds, hrd, List.append_assoc m.history] at hh
  rw [hf.transition] at hem
  refine ⟨rd ++ ds, rs, hh, fun e he => ?_, hout, hem, ?_, ?_, ?_, ?_,
    ⟨order, q, hst, hp, hq, ha, fun ht => ?_⟩, fun ht => ?_, fun ht => ?_, fun htwice => ?_⟩
  · rcases List.mem_append.1 he with he | he
    · exact Or.inl (hread e he)
    · exact Or.inr (hdrop e he)
  · rw [(dispatched _ choice p a).unsent, hf.transition, hf.unsent]
  · rw [(dispatched _ choice p a).credit, hf.credit]
  · rw [← congrFun (inletIs_isOpen_seek m order) p, inletIs_iff_of_some hq]
    exact ho
  · rw [(dispatched _ choice p a).turn, hf.turn]
  · obtain ⟨x, rfl⟩ := Arrival.isTerminal_eq_false.1 ht
    rw [history_putInlet hq (by rw [Inlet.take_element ha])] at hds
    obtain rfl : ds = [] := by simpa using hds
    rw [List.append_nil, hrd]
  · have hs := (hb p q hq).settled (Inlet.status_ne_of_isOpen ho)
    have hk : q.kept = none := Inlet.kept_of_buffer ha ht
    have hds : ∀ f : Entry L → Option α, f (.dropped p) = none → ds.filterMap f = [] :=
      fun f hf => List.filterMap_eq_nil_iff.2 fun e he => by rw [hdrop e he, hf]
    have hy : (m.seek order).2.yielded p = (m.seek order).2.handed p := by
      have hs : _ = _ ++ q.kept.toList := hs
      rw [hk] at hs
      exact hs.trans (List.append_nil _)
    rw [← List.append_assoc, ← hrd, List.filterMap_append, hds _ rfl, List.append_nil]
    rw [List.filterMap_append, hds _ rfl, List.append_nil]
    exact hy
  · have hb' := hb.acts (works_take _ choice hq ha).acts
    rw [dispatch_eq]
    refine hb'.closed_acts (works_apply _ _ _ _).acts ?_
    have hi := (accept_spec ((m.seek order).2.putInlet p q.take.2) choice p a).inlets
    rw [inletIs, hi, inlets_putInlet, List.getElem?_set_self (List.getElem?_eq_some_iff.1 hq).1]
    exact (Inlet.isOpen_take_terminal ha ht).1
  · rw [dispatch_eq, apply_eq, hf.transition, if_pos htwice]
    unfold verdict?
    rw [(finish_spec _ _).stage]

/-- An attempt only reads, or takes up one event. -/
theorem Tries.serves {m m' : Merge L u} (h : Tries m m') (hm : m.Balanced) :
    Extends isReading m m' ∨ ∃ choice p a reads outcome, Serves m choice p a reads outcome m' := by
  cases h with
  | waits choice order => exact Or.inl (extends_seek m order)
  | accepts choice order p a q hst hp hq ha => exact Or.inr ⟨choice, p, a, serves_of_found hm hst hp hq ha⟩

/-! ## Rules about events -/

theorem concerns_handling {m : Merge L u} {p k : InletId} {a : Arrival α} {next : L.State} {e : Entry L}
    (he : e ∈ (m.handling p a next).toList) (hk : e.concerns k) :
    k = p ∧ (a.isTerminal = true → e.isLastCall p) := by
  cases a with
  | element x =>
    obtain rfl := Option.some.inj (Option.mem_toList.1 he)
    exact ⟨hk.symm, fun h => by cases h⟩
  | completed =>
    unfold handling at he
    cases hp : m.policy <;> rw [hp] at he
    · cases he
    · cases he
    · obtain rfl := Option.some.inj (Option.mem_toList.1 he)
      exact ⟨hk.symm, fun _ => rfl⟩
  | failed c =>
    unfold handling at he
    cases hp : m.policy <;> rw [hp] at he
    · cases he
    · cases he
    · obtain rfl := Option.some.inj (Option.mem_toList.1 he)
      exact ⟨hk.symm, fun _ => rfl⟩

namespace Serves

variable {m m' : Merge L u} {choice : Choice} {p : InletId} {a : Arrival α} {reads outcome : List (Entry L)}
variable (h : Serves m choice p a reads outcome m') {e : Entry L}
include h

theorem not_concerns_reads (he : e ∈ reads) (k : InletId) : ¬ e.concerns k := by
  rcases h.isRead e he with h | rfl
  · exact Entry.not_concerns_of_isReading h k
  · exact id

theorem not_isArrival_reads (he : e ∈ reads) : ¬ e.isArrival := by
  rcases h.isRead e he with h | rfl
  · exact Entry.not_isArrival_of_isReading h
  · exact id

theorem not_isArrival_rest (he : e ∈ (m.handling p a (m.transition p a).next).toList ++ outcome) :
    ¬ e.isArrival := by
  rcases List.mem_append.1 he with he | he
  · exact Entry.not_isArrival_of_isCall (isCall_handling he)
  · exact Entry.not_isArrival_of_isOutcome (h.isOutcome e he)

end Serves

/-- Only an inlet that is open brings an event. -/
theorem Step.extends_concerns {m m' : Merge L u} (h : Step m m') (hm : m.Balanced) :
    Extends (fun e => ∀ p, e.concerns p → m.inletIs p (·.isOpen) = true) m m' := by
  rcases h.aside_or_tries with h | h
  · exact h.history.mono fun e he p hc => absurd hc (Entry.not_concerns_of_isSideline he p)
  · rcases h.serves hm with h | ⟨choice, p, a, reads, outcome, h⟩
    · exact h.mono fun e he p hc => absurd hc (Entry.not_concerns_of_isReading he p)
    · refine ⟨_, h.history.trans (List.append_assoc ..), fun e he k hk => ?_⟩
      rcases List.mem_append.1 he with he | he
      · exact absurd hk (h.not_concerns_reads he k)
      · rcases List.mem_cons.1 he with rfl | he
        · exact hk ▸ h.isOpen
        · rcases List.mem_append.1 he with he | he
          · exact (concerns_handling he hk).1 ▸ h.isOpen
          · exact absurd hk (Entry.not_concerns_of_isOutcome (h.isOutcome e he) k)

theorem Change.extends_concerns {m m' : Merge L u} (h : Change m m') (hm : m.Balanced) :
    Extends (fun e => ∀ p, e.concerns p → m.inletIs p (·.isOpen) = true) m m' := by
  cases h with
  | step => exact (step_spec m).extends_concerns hm
  | abandon =>
    exact (extends_releaseAll m).mono fun e ⟨k, he⟩ p hc => by subst he; cases hc
  | _ => exact .of_eq rfl

/-- Nothing concerns a closed inlet any more. -/
theorem Changes.extends_closed {m m' : Merge L u} (h : Changes m m') (hm : m.Balanced) {p : InletId}
    (hc : m.inletIs p (·.isOpen) = false) : Extends (fun e => ¬ e.concerns p) m m' := by
  refine (h.induction (motive := fun m' => Extends (fun e => ¬ e.concerns p) m m' ∧ m'.Balanced ∧
    m'.inletIs p (·.isOpen) = false) (fun m₁ m₂ hch ⟨hx, hb, hcl⟩ => ?_) ⟨.refl m, hm, hc⟩).1
  refine ⟨hx.trans ((hch.extends_concerns hb).mono fun e he hk => ?_), hb.acts hch.acts,
    hb.closed_acts hch.acts hcl⟩
  rw [he p hk] at hcl
  cases hcl

/-- The end or a failure of an inlet is its last event: it comes when all that the source yielded has been handed
over, and only the call about it follows. -/
def LastWord (m : Merge L u) : Prop := ∀ pre c p a post, m.history = pre ++ .arrived c p a :: post →
  a.isTerminal = true → m.inletIs p (·.isOpen) = false ∧
    pre.filterMap (Entry.yielded? p) = pre.filterMap (Entry.handed? p) ∧
    ∀ e ∈ post, e.concerns p → e.isLastCall p ∧ post.head? = some e

/-- A split of a list at one of its members lies in the one or in the other part of the list. -/
theorem split_append {γ : Type} {pre post xs ys : List γ} {x : γ} (h : xs ++ ys = pre ++ x :: post) :
    (∃ zs, xs = pre ++ x :: zs ∧ post = zs ++ ys) ∨ ∃ zs, pre = xs ++ zs ∧ ys = zs ++ x :: post := by
  rcases List.append_eq_append_iff.1 h with ⟨zs, hpre, hys⟩ | ⟨zs, hxs, hcons⟩
  · exact Or.inr ⟨zs, hpre, hys⟩
  · cases zs with
    | nil => exact Or.inr ⟨[], by simpa using hxs.symm, hcons.symm⟩
    | cons z zs =>
      obtain ⟨rfl, hpost⟩ := List.cons.inj hcons
      exact Or.inl ⟨zs, hxs, hpost⟩

/-- Two splits of a list at its only member with a property are the same. -/
theorem split_unique {γ : Type} {P : γ → Prop} {x y : γ} {ds : List γ} : ∀ {as bs cs : List γ},
    as ++ x :: bs = cs ++ y :: ds → P x → (∀ e ∈ cs, ¬ P e) → (∀ e ∈ ds, ¬ P e) → as = cs ∧ x = y ∧ bs = ds
  | [], bs, [], h, _, _, _ => ⟨rfl, List.cons.inj h⟩
  | [], bs, c :: cs, h, hx, hcs, _ => absurd ((List.cons.inj h).1 ▸ hx) (hcs c (by simp))
  | a :: as, bs, [], h, hx, _, hds => absurd hx (hds x (by rw [← (List.cons.inj h).2]; simp))
  | a :: as, bs, c :: cs, h, hx, hcs, hds => by
    obtain ⟨rfl, htail⟩ := List.cons.inj h
    have hrest : as ++ x :: bs = cs ++ y :: ds := htail
    obtain ⟨hs, hxy⟩ := split_unique hrest hx (fun e he => hcs e (List.mem_cons_of_mem a he)) hds
    exact ⟨by rw [hs], hxy⟩

/-- Whoever has spoken the last word stays silent. -/
theorem LastWord.extend {m m' : Merge L u} (h : m.LastWord) (hb : m.Balanced) (ha : Acts m m')
    {es : List (Entry L)} (hes : ∀ e ∈ es, ∀ p, e.concerns p → m.inletIs p (·.isOpen) = true)
    {pre post : List (Entry L)} {c : Choice} {p : InletId} {a : Arrival α}
    (hpre : m.history = pre ++ .arrived c p a :: post) (ht : a.isTerminal = true) :
    m'.inletIs p (·.isOpen) = false ∧ pre.filterMap (Entry.yielded? p) = pre.filterMap (Entry.handed? p) ∧
      ∀ e ∈ post ++ es, e.concerns p → e.isLastCall p ∧ (post ++ es).head? = some e := by
  obtain ⟨hcl, hcaught, hlast⟩ := h pre c p a post hpre ht
  refine ⟨hb.closed_acts ha hcl, hcaught, fun e he hk => ?_⟩
  rcases List.mem_append.1 he with he | he
  · obtain ⟨hcall, hhead⟩ := hlast e he hk
    exact ⟨hcall, by rw [List.head?_append, hhead]; rfl⟩
  · rw [hes e he p hk] at hcl
    cases hcl

/-- Changes that bring no event keep the last word. -/
theorem LastWord.of_extends {m m' : Merge L u} (h : m.LastWord) (hb : m.Balanced) (ha : Acts m m')
    (hx : Extends (fun e => ¬ e.isArrival ∧ ∀ p, ¬ e.concerns p) m m') : m'.LastWord := by
  obtain ⟨es, hes, hok⟩ := hx
  intro pre c p a post hsplit ht
  rw [hes] at hsplit
  rcases split_append hsplit with ⟨zs, hpre, rfl⟩ | ⟨zs, -, hys⟩
  · exact h.extend hb ha (fun e he k hk => absurd hk ((hok e he).2 k)) hpre ht
  · exact absurd trivial (hok (.arrived c p a) (by rw [hys]; simp)).1

theorem LastWord.step {m m' : Merge L u} (hw : m.LastWord) (h : Step m m') (hb : m.Balanced) : m'.LastWord := by
  rcases h.aside_or_tries with hx | htry
  · exact hw.of_extends hb h.acts
      (hx.history.mono fun e he => ⟨Entry.not_isArrival_of_isSideline he, Entry.not_concerns_of_isSideline he⟩)
  · rcases htry.serves hb with hx | ⟨choice, k, b, reads, outcome, hs⟩
    · exact hw.of_extends hb h.acts
        (hx.mono fun e he => ⟨Entry.not_isArrival_of_isReading he, Entry.not_concerns_of_isReading he⟩)
    · intro pre c p a post hsplit ht
      have hh := hs.history
      rw [List.append_assoc] at hh
      obtain ⟨es, hes, hopen⟩ := h.extends_concerns hb
      have he := List.append_cancel_left (hes.symm.trans hh)
      rw [hh] at hsplit
      rcases split_append hsplit with ⟨zs, hpre, rfl⟩ | ⟨zs, rfl, hys⟩
      · exact hw.extend hb h.acts (he ▸ hopen) hpre ht
      · -- The new arrival is the only one, so it is the one of the split.
        obtain ⟨rfl, heq, rfl⟩ := split_unique (P := Entry.isArrival) hys.symm trivial
          (fun e he => hs.not_isArrival_reads he) (fun e he => hs.not_isArrival_rest he)
        cases heq
        refine ⟨hs.closed ht, hs.caughtUp ht, fun e he hk => ?_⟩
        rcases List.mem_append.1 he with he | he
        · refine ⟨(concerns_handling he hk).2 ht, ?_⟩
          rw [List.head?_append, List.head?_eq_some_iff.2 ⟨[], ?_⟩]
          · rfl
          · cases hopt : m.handling k b (m.transition k b).next with
            | none => rw [hopt] at he; cases he
            | some e' => rw [hopt] at he; rw [List.mem_singleton.1 he]; rfl
        · exact absurd hk (Entry.not_concerns_of_isOutcome (hs.isOutcome e he) k)

theorem LastWord.change {m m' : Merge L u} (hw : m.LastWord) (h : Change m m') (hb : m.Balanced) :
    m'.LastWord := by
  cases h with
  | step => exact hw.step (step_spec m) hb
  | abandon hf =>
    exact hw.of_extends hb (Change.abandon m hf).acts
      ((extends_releaseAll m).mono fun e ⟨k, he⟩ => by subst he; exact ⟨id, fun _ => id⟩)
  | rouse hf => exact hw.of_extends hb (Change.rouse m hf).acts (.of_eq rfl)
  | relink k hk => exact hw.of_extends hb (Change.relink m k hk).acts (.of_eq rfl)
  | adjust p q s s' hq hs => exact hw.of_extends hb (Change.adjust m p q s s' hq hs).acts (.of_eq rfl)

theorem Fresh.lastWord {m : Merge L u} {sources : List u.State} (h : Fresh m sources) : m.LastWord := by
  intro pre c p a post hsplit
  rw [h.history] at hsplit
  exact absurd (congrArg List.length hsplit) (by simp)

end Merge
end StreamMerge
