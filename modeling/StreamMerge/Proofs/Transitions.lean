import StreamMerge.Proofs.Completion
import StreamMerge.Proofs.Consumer
import StreamMerge.Strategy.Alternate

/-!
# Transitions, all or nothing

`Merge.AppliesWhole` says what becomes of a merge by the requests of one transition: either all of them take effect, or,
when the transition emits twice, none does. The transitions of a run hang together by its `Thread`, that is by what the
strategy remembers, the state it is in and the end policy in force: every call of the strategy begins where the one
before it has led, and an end or a failure leads to a call only under a policy of the strategy's own
(`Session.play_transits`).
-/
namespace StreamMerge

variable {α β : Type} {L : Strategy α β} {u : Source α}

namespace Merge

/-! ## One transition -/

/-- `m'` is what the transition for the event `a` of `p` makes of `m`, as a whole. -/
structure AppliesWhole (m : Merge L u) (p : InletId) (a : Arrival α) (m' : Merge L u) : Prop where
  /-- A transition that emits twice or more ends the run in an error, and nothing that it requested has taken effect. -/
  nothing : 2 ≤ ((m.transition p a).actions.filterMap Action.emitted?).length →
    m'.stage = .ended (.error (.protocol .emittedTwice)) ∧
    ∃ m₁ : Merge L u, m' = m₁.finish (.error (.protocol .emittedTwice)) ∧ m₁.state = m.state ∧ m₁.policy = m.policy ∧
      m₁.unsent = m.unsent ∧ m₁.inlets = m.inlets ∧ m₁.credit = m.credit ∧ m₁.link = m.link
  /-- Otherwise everything takes effect: the state is the next one, the policy the last one given, the inlets that are
  named are released and no others, what is emitted is kept for delivery, and then the run goes on or ends as the first
  request to end it says. -/
  all : ((m.transition p a).actions.filterMap Action.emitted?).length ≤ 1 →
    ∃ m₁ : Merge L u, m' = m₁.close ((m.transition p a).actions.findSome? Action.closing?) ∧
      m₁.state = (m.transition p a).next ∧
      m₁.policy = ((m.transition p a).actions.filterMap Action.policy?).getLast?.getD m.policy ∧
      (∀ k : InletId, .release k ∈ (m.transition p a).actions →
        m₁.inlets[k]? = m.inlets[k]?.map (·.release.2)) ∧
      (∀ k : InletId, .release k ∉ (m.transition p a).actions → m₁.inlets[k]? = m.inlets[k]?) ∧
      m₁.unsent = (((m.transition p a).actions.filterMap Action.emitted?).head? <|> m.unsent) ∧
      m₁.credit = m.credit ∧ m₁.link = m.link

theorem dispatch_appliesWhole (m : Merge L u) (choice : Choice) (p : InletId) (a : Arrival α) :
    AppliesWhole m p a (m.dispatch choice p a) := by
  have haccept := accept_spec m choice p a
  have hamounts := Effects.amounts_ofActions (m.transition p a).actions
  constructor
  · intro htwice
    have hends : m.dispatch choice p a = ((m.accept choice p a).log
        (.violated .emittedTwice p (L.showState (m.accept choice p a).state))).finish
        (.error (.protocol .emittedTwice)) := by
      rw [dispatch_eq, apply_eq, hamounts.emittedTwice, if_pos (decide_eq_true htwice)]
    refine ⟨?_, _, hends, haccept.state, haccept.policy, haccept.unsent, haccept.inlets, haccept.credit,
      haccept.link⟩
    rw [hends]
    exact (finish_spec _ _).stage
  · intro honce
    have hnot : ¬ 2 ≤ ((m.transition p a).actions.filterMap Action.emitted?).length := by omega
    have hsettled := settled_spec (m.accept choice p a) (.ofActions (m.transition p a).actions) (m.transition p a).next
    refine ⟨(m.accept choice p a).settled (.ofActions (m.transition p a).actions) (m.transition p a).next, ?_,
      hsettled.state, ?_, ?_, ?_, ?_, hsettled.credit.trans haccept.credit, hsettled.link.trans haccept.link⟩
    · rw [dispatch_eq, apply_eq, hamounts.emittedTwice, if_neg (by simpa using hnot), hamounts.closing]
    · rw [hsettled.policy, haccept.policy, hamounts.policy]
    · intro k hk
      rw [hsettled.inlet, if_pos ((hamounts.releases k).2 hk), haccept.inlets]
    · intro k hk
      rw [hsettled.inlet, if_neg fun hmem => hk ((hamounts.releases k).1 hmem), haccept.inlets]
    · rw [hsettled.unsent, haccept.unsent, hamounts.emission]

end Merge

/-! ## The thread of a run -/

/-- What a strategy goes by from one event to the next. -/
structure Thread (L : Strategy α β) where
  memory : L.Memory
  state : L.State
  policy : EndPolicy L.Key

namespace Thread

/-- What a strategy goes by at first in a merge of `count` inputs. -/
def start (L : Strategy α β) (count : Nat) : Thread L :=
  let memory := (Merge.declare L count).2
  ⟨memory, L.start memory, L.policy memory⟩

/-- Where a transition leads. -/
def follow (t : Thread L) (r : Transition β L.Key L.State L.Memory) : Thread L :=
  ⟨r.memory, r.next, (r.actions.filterMap Action.policy?).getLast?.getD t.policy⟩

/-- What an event leads to in a merge of `count` inputs: the call of the strategy, if it is called, and where that leads.
An end or a failure is left to the strategy under a policy of its own only. -/
def turn (t : Thread L) (count : Nat) (p : InletId) (a : Arrival α) : Option (Entry L) × Thread L :=
  match a, t.policy with
  | .element x, _ =>
    let r := L.onElement t.memory count t.state p x
    (some (.onElement p x t.state r.next), t.follow r)
  | .completed, .custom key =>
    let r := L.onEnd t.memory count key t.state p
    (some (.onEnd p key t.state r.next), t.follow r)
  | .failed c, .custom key =>
    let r := L.onFailure t.memory count key t.state p c
    (some (.onFailure p key c t.state r.next), t.follow r)
  | _, _ => (none, t)

/-- What a strategy goes by after these events. -/
def after (t : Thread L) (count : Nat) (events : List (InletId × Arrival α)) : Thread L :=
  events.foldl (fun t e => (t.turn count e.1 e.2).2) t

theorem after_concat (t : Thread L) (count : Nat) (events : List (InletId × Arrival α)) (p : InletId)
    (a : Arrival α) : t.after count (events ++ [(p, a)]) = ((t.after count events).turn count p a).2 :=
  List.foldl_concat ..

/-- The strategy is called about an end or a failure exactly under a policy of its own. -/
theorem isSome_turn (t : Thread L) (count : Nat) (p : InletId) {a : Arrival α} (ht : a.isTerminal = true) :
    (t.turn count p a).1.isSome = true ↔ ∃ key, t.policy = .custom key := by
  unfold turn
  cases a with
  | element x => cases ht
  | completed => cases hp : t.policy <;> simp
  | failed c => cases hp : t.policy <;> simp

/-- What an event leads to is a call of the strategy. -/
theorem isCall_turn {t : Thread L} {count : Nat} {p : InletId} {a : Arrival α} {e : Entry L}
    (he : (t.turn count p a).1 = some e) : Merge.isCall e := by
  unfold turn at he
  split at he <;> cases he <;> exact trivial

end Thread

/-- From `s` on, each leap begins where the one before it has ended. -/
def Linked {σ : Type} : σ → List (σ × σ) → Prop
  | _, [] => True
  | s, (source, target) :: rest => source = s ∧ Linked target rest

/-- Where leaps from `s` on have led. -/
def endpoint {σ : Type} (s : σ) (leaps : List (σ × σ)) : σ := leaps.foldl (fun _ leap => leap.2) s

theorem linked_concat {σ : Type} : ∀ {s : σ} {leaps : List (σ × σ)} {target : σ}, Linked s leaps →
    Linked s (leaps ++ [(endpoint s leaps, target)])
  | _, [], _, _ => ⟨rfl, trivial⟩
  | _, (_, _) :: _, _, ⟨hsource, hrest⟩ => ⟨hsource, linked_concat hrest⟩

theorem endpoint_concat {σ : Type} (s : σ) (leaps : List (σ × σ)) (source target : σ) :
    endpoint s (leaps ++ [(source, target)]) = target := by
  simp [endpoint]

namespace Entry

/-- The states between which a call of the strategy leads. -/
def leap? : Entry L → Option (L.State × L.State)
  | .onElement _ _ source target | .onEnd _ _ source target | .onFailure _ _ _ source target => some (source, target)
  | _ => none

/-- An entry about neither an event nor a call of the strategy. -/
def isUntold (e : Entry L) : Prop := ¬ e.isArrival ∧ ¬ Merge.isCall e

theorem isUntold_of_isSideline {e : Entry L} (h : e.isSideline) : e.isUntold := by
  cases e <;> first | exact ⟨id, id⟩ | cases h

theorem isUntold_of_isReading {e : Entry L} (h : Merge.isReading e) : e.isUntold := by
  cases e <;> first | exact ⟨id, id⟩ | cases h

theorem isUntold_of_isOutcome {e : Entry L} (h : e.isOutcome) : e.isUntold := by
  cases e <;> first | exact ⟨id, id⟩ | cases h

theorem leap?_of_not_isCall {e : Entry L} (h : ¬ Merge.isCall e) : e.leap? = none := by
  cases e <;> first | rfl | exact absurd trivial h

end Entry

namespace Merge

/-- What the strategy of a merge goes by. -/
def thread (m : Merge L u) : Thread L := ⟨m.memory, m.state, m.policy⟩

/-- The events that were taken up, in order and each with its inlet. -/
def arrivals (m : Merge L u) : List (InletId × Arrival α) := m.history.filterMap Entry.arrival?

/-- The states between which the calls of the strategy have led, in order. -/
def leaps (m : Merge L u) : List (L.State × L.State) := m.history.filterMap Entry.leap?

section
variable {m m' : Merge L u} {p : InletId} {a : Arrival α}

theorem turn_thread (m : Merge L u) (p : InletId) (a : Arrival α) : m.thread.turn m.inlets.length p a =
    (m.handling p a (m.transition p a).next, m.thread.follow (m.transition p a)) := by
  unfold Thread.turn handling transition thread
  cases a with
  | element x => rfl
  | completed => cases hp : m.policy <;> simp [Thread.follow, remain, Action.policy?]
  | failed c => cases hp : m.policy <;> simp [Thread.follow, remain, Action.policy?]

/-- A call begins in the present state, and the state does not change without one. -/
theorem leap?_handling (m : Merge L u) (p : InletId) (a : Arrival α) :
    (∃ e, m.handling p a (m.transition p a).next = some e ∧ e.leap? = some (m.state, (m.transition p a).next)) ∨
    m.handling p a (m.transition p a).next = none ∧ (m.transition p a).next = m.state := by
  unfold handling transition
  cases a with
  | element x => exact Or.inl ⟨_, rfl, rfl⟩
  | completed =>
    cases hp : m.policy with
    | custom key => exact Or.inl ⟨_, rfl, rfl⟩
    | _ => exact Or.inr ⟨rfl, rfl⟩
  | failed c =>
    cases hp : m.policy with
    | custom key => exact Or.inl ⟨_, rfl, rfl⟩
    | _ => exact Or.inr ⟨rfl, rfl⟩

theorem Step.untold_or_accepts (h : Step m m') : Extends Entry.isUntold m m' ∨ ∃ p a, Accepts m p a m' := by
  rcases h.aside_or_tries with haside | htry
  · exact Or.inl (haside.history.mono fun _ => Entry.isUntold_of_isSideline)
  · cases htry with
    | waits choice order => exact Or.inl ((extends_seek m order).mono fun _ => Entry.isUntold_of_isReading)
    | accepts choice order p a q hst hp hq ha => exact Or.inr ⟨p, a, .found choice order q hst hp hq ha⟩

/-- A change takes up no event, or accepts one. -/
theorem Change.untold_or_accepts (h : Change m m') : Extends Entry.isUntold m m' ∨ ∃ p a, Accepts m p a m' := by
  cases h with
  | step => exact (step_spec m).untold_or_accepts
  | abandon => exact Or.inl ((extends_releaseAll m).mono fun e ⟨p, he⟩ => he ▸ ⟨id, id⟩)
  | _ => exact Or.inl (.of_eq rfl)

theorem arrivals_of_extends (h : Extends Entry.isUntold m m') : m'.arrivals = m.arrivals :=
  h.filterMap_eq fun _ he => Entry.arrival?_of_not_isArrival he.1

theorem leaps_of_extends (h : Extends Entry.isUntold m m') : m'.leaps = m.leaps :=
  h.filterMap_eq fun _ he => Entry.leap?_of_not_isCall he.2

/-- To accept an event is to write it down, and then the call of the strategy. -/
theorem Accepts.writes (h : Accepts m p a m') (hb : m.Balanced) : ∃ choice reads outcome,
    m'.history = m.history ++ (reads ++
      .arrived choice p a :: ((m.handling p a (m.transition p a).next).toList ++ outcome)) ∧
    (∀ e ∈ reads, e.isUntold) ∧ ∀ e ∈ outcome, e.isUntold := by
  obtain ⟨choice, order, q, hst, hp, hq, ha⟩ := h
  obtain ⟨reads, outcome, hs⟩ := serves_of_found hb hst hp hq ha
  refine ⟨choice, reads, outcome, by rw [hs.history, List.append_assoc], fun e he => ?_, fun e he => ?_⟩
  · rcases hs.isRead e he with hread | rfl
    · exact Entry.isUntold_of_isReading hread
    · exact ⟨id, id⟩
  · exact Entry.isUntold_of_isOutcome (hs.isOutcome e he)

theorem filterMap_arrival?_of_isUntold {es : List (Entry L)} (h : ∀ e ∈ es, e.isUntold) :
    es.filterMap Entry.arrival? = [] :=
  List.filterMap_eq_nil_iff.2 fun e he => Entry.arrival?_of_not_isArrival (h e he).1

theorem filterMap_leap?_of_isUntold {es : List (Entry L)} (h : ∀ e ∈ es, e.isUntold) :
    es.filterMap Entry.leap? = [] :=
  List.filterMap_eq_nil_iff.2 fun e he => Entry.leap?_of_not_isCall (h e he).2

theorem Accepts.arrivals (h : Accepts m p a m') (hb : m.Balanced) : m'.arrivals = m.arrivals ++ [(p, a)] := by
  obtain ⟨choice, reads, outcome, hh, hreads, houtcome⟩ := h.writes hb
  have hcall : (m.handling p a (m.transition p a).next).toList.filterMap Entry.arrival? = [] :=
    List.filterMap_eq_nil_iff.2 fun e he =>
      Entry.arrival?_of_not_isArrival (Entry.not_isArrival_of_isCall (isCall_handling he))
  rw [Merge.arrivals, hh, List.filterMap_append, List.filterMap_append, filterMap_arrival?_of_isUntold hreads,
    List.filterMap_cons_some (f := Entry.arrival?) (b := (p, a)) rfl, List.filterMap_append, hcall,
    filterMap_arrival?_of_isUntold houtcome]
  rfl

theorem Accepts.leaps (h : Accepts m p a m') (hb : m.Balanced) :
    m'.leaps = m.leaps ++ (m.handling p a (m.transition p a).next).toList.filterMap Entry.leap? := by
  obtain ⟨choice, reads, outcome, hh, hreads, houtcome⟩ := h.writes hb
  rw [Merge.leaps, hh, List.filterMap_append, List.filterMap_append, filterMap_leap?_of_isUntold hreads,
    List.filterMap_cons_none rfl, List.filterMap_append, filterMap_leap?_of_isUntold houtcome, List.append_nil]
  rfl

/-- A run that goes on after an event goes by where the event has led. -/
theorem Accepts.thread (h : Accepts m p a m') (hb : m.Balanced) (hc : m.Coherent)
    (hr : m'.stage.isFinal = false) : m'.thread = m.thread.follow (m.transition p a) := by
  have honce : (Effects.ofActions (m.transition p a).actions).emittedTwice = false := by
    refine eq_false_of_ne_true fun htwice => ?_
    have hst := stage_of_verdict? (h.broken hb htwice)
    rw [hst] at hr
    cases hr
  have hobeys := (h.handles hb hc).obeys honce
  unfold Merge.thread Thread.follow
  rw [hobeys.memory, hobeys.state, hobeys.policy, (Effects.amounts_ofActions _).policy]

/-! ## The course of a run -/

/-- The transitions of a run of `count` inputs hang together. -/
structure Threaded (count : Nat) (m : Merge L u) : Prop where
  inlets : m.inlets.length = count
  /-- Right after an event comes the call that it leads to, if it leads to one, and no other. -/
  told : ∀ before choice p a after, m.history = before ++ .arrived choice p a :: after →
    ∃ rest, after = (((Thread.start L count).after count (before.filterMap Entry.arrival?)).turn count p a).1.toList ++
      rest ∧ ∀ e, rest.head? = some e → ¬ isCall e
  linked : Linked (Thread.start L count).state m.leaps
  running : m.stage.isFinal = false → m.thread = (Thread.start L count).after count m.arrivals ∧
    m.state = endpoint (Thread.start L count).state m.leaps

variable {count : Nat}

theorem head?_append_of {es es' : List (Entry L)} {P : Entry L → Prop} (h : ∀ e, es.head? = some e → P e)
    (h' : ∀ e, es'.head? = some e → P e) : ∀ e, (es ++ es').head? = some e → P e := by
  intro e he
  cases es with
  | nil => exact h' e he
  | cons e₁ es => exact h e he

theorem Threaded.keeps (h : m.Threaded count) (hk : Keeps m m') (hx : Extends Entry.isUntold m m')
    (hcount : m'.inlets.length = m.inlets.length) : m'.Threaded count := by
  have harrivals := arrivals_of_extends hx
  have hleaps := leaps_of_extends hx
  refine ⟨hcount.trans h.inlets, ?_, by rw [hleaps]; exact h.linked, ?_⟩
  · obtain ⟨es, hes, hok⟩ := hx
    intro before choice p a after hsplit
    rw [hes] at hsplit
    rcases split_append hsplit with ⟨after', hold, rfl⟩ | ⟨zs, -, hnew⟩
    · obtain ⟨rest, rfl, hrest⟩ := h.told before choice p a after' hold
      refine ⟨rest ++ es, by rw [List.append_assoc], head?_append_of hrest ?_⟩
      intro e he
      exact (hok e (List.mem_of_mem_head? he)).2
    · exact absurd trivial (hok (.arrived choice p a) (by rw [hnew]; simp)).1
  · intro hr
    obtain ⟨hthread, hstate⟩ := h.running (hk.running hr)
    refine ⟨?_, by rw [hk.state, hleaps, hstate]⟩
    rw [harrivals, ← hthread, Merge.thread, hk.memory, hk.state, hk.policy]
    rfl

theorem Threaded.accepts (h : m.Threaded count) (ha : Accepts m p a m') (hb : m.Balanced) (hc : m.Coherent)
    (hcount : m'.inlets.length = m.inlets.length) : m'.Threaded count := by
  obtain ⟨hthread, hstate⟩ := h.running (ha.handles hb hc).running
  have hturn := turn_thread m p a
  rw [h.inlets] at hturn
  refine ⟨hcount.trans h.inlets, ?_, ?_, ?_⟩
  · obtain ⟨choice, reads, outcome, hh, hreads, houtcome⟩ := ha.writes hb
    intro before choice' k b after hsplit
    rw [hh] at hsplit
    rcases split_append hsplit with ⟨after', hold, rfl⟩ | ⟨zs, rfl, hnew⟩
    · obtain ⟨rest, rfl, hrest⟩ := h.told before choice' k b after' hold
      refine ⟨_, List.append_assoc .., head?_append_of hrest (head?_append_of ?_ ?_)⟩
      · intro e he
        exact (hreads e (List.mem_of_mem_head? he)).2
      · intro e he
        obtain rfl := Option.some.inj he
        exact id
    · obtain ⟨rfl, heq, rfl⟩ := split_unique (P := fun e => e.isArrival) hnew.symm trivial
        (fun e he => (hreads e he).1) fun e he => by
          rcases List.mem_append.1 he with he | he
          · exact Entry.not_isArrival_of_isCall (isCall_handling he)
          · exact (houtcome e he).1
      cases heq
      have hbefore : (m.history ++ zs).filterMap Entry.arrival? = m.arrivals := by
        rw [List.filterMap_append, filterMap_arrival?_of_isUntold hreads, List.append_nil]
        rfl
      refine ⟨outcome, ?_, fun e he => (houtcome e (List.mem_of_mem_head? he)).2⟩
      rw [hbefore, ← hthread, hturn]
  · rw [ha.leaps hb]
    rcases leap?_handling m p a with ⟨e, he, hleap⟩ | ⟨hnone, -⟩
    · rw [he, Option.toList_some, List.filterMap_cons_some hleap, List.filterMap_nil, hstate]
      exact linked_concat h.linked
    · rw [hnone]
      simpa using h.linked
  · intro hr
    have hnext := ha.thread hb hc hr
    refine ⟨?_, ?_⟩
    · rw [hnext, ha.arrivals hb, Thread.after_concat, ← hthread, hturn]
    · have hstate' : m'.state = (m.transition p a).next := congrArg Thread.state hnext
      rw [hstate', ha.leaps hb]
      rcases leap?_handling m p a with ⟨e, he, hleap⟩ | ⟨hnone, hstay⟩
      · rw [he, Option.toList_some, List.filterMap_cons_some hleap, List.filterMap_nil, endpoint_concat]
      · rw [hnone, hstay, hstate]
        simp

/-- Every change keeps the transitions together. -/
theorem Change.threaded (h : Change m m') (hb : m.Balanced) (hc : m.Coherent) (hm : m.Threaded count) :
    m'.Threaded count := by
  rcases and_or_right.2 ⟨h.keeps_or_accepts, h.untold_or_accepts⟩ with ⟨hk, hx⟩ | ⟨p, a, ha⟩
  · exact hm.keeps hk hx h.count
  · exact hm.accepts ha hb hc h.count

theorem setUp_threaded {settings : Settings} {sources : List u.State} (h : setUp L u settings sources = .ok m) :
    m.Threaded sources.length := by
  have hfresh := setUp_fresh h
  obtain ⟨hmemory, hstate, hpolicy⟩ := setUp_start h
  refine ⟨hfresh.count, ?_, ?_, fun _ => ⟨?_, ?_⟩⟩
  · intro before choice p a after hsplit
    rw [hfresh.history] at hsplit
    exact absurd (congrArg List.length hsplit) (by simp)
  · rw [leaps, hfresh.history]
    exact trivial
  · rw [arrivals, hfresh.history, thread, hpolicy, hstate, hmemory]
    rfl
  · rw [leaps, hfresh.history, hstate, hmemory]
    rfl

/-- An end or a failure reaches the strategy exactly under a policy of its own. -/
theorem Threaded.reaches (h : m.Threaded count) {before after : List (Entry L)} {choice : Choice}
    (hsplit : m.history = before ++ .arrived choice p a :: after) (ht : a.isTerminal = true) :
    (∃ e, after.head? = some e ∧ isCall e) ↔
      ∃ key, ((Thread.start L count).after count (before.filterMap Entry.arrival?)).policy = .custom key := by
  obtain ⟨rest, rfl, hrest⟩ := h.told before choice p a after hsplit
  rw [← Thread.isSome_turn _ count p ht]
  cases hturn : (((Thread.start L count).after count (before.filterMap Entry.arrival?)).turn count p a).1 with
  | none =>
    constructor
    · rintro ⟨e, he, hcall⟩
      exact absurd hcall (hrest e he)
    · intro hsome
      cases hsome
  | some e => exact ⟨fun _ => rfl, fun _ => ⟨e, rfl, Thread.isCall_turn hturn⟩⟩

end
end Merge

namespace Session

/-- **Transitions apply as a whole, and each begins where the one before it has led.** For every strategy, whatever it
requests: what any event makes of any merge; and, for all sources and every order of moves, how the calls of the strategy
follow one another, and which ends and failures reach it. -/
theorem play_transits {settings : Settings} {sources : List u.State} {m : Merge L u}
    (hm : Merge.setUp L u settings sources = .ok m) (moves : List (Move u)) :
    (∀ (m₁ : Merge L u) (choice : Choice) (p : InletId) (a : Arrival α),
      m₁.AppliesWhole p a (m₁.dispatch choice p a)) ∧
    ((start m).play moves).merge.Threaded sources.length ∧
    ∀ (before after : List (Entry L)) (choice : Choice) (p : InletId) (a : Arrival α),
      ((start m).play moves).merge.history = before ++ .arrived choice p a :: after → a.isTerminal = true →
      ((∃ e, after.head? = some e ∧ Merge.isCall e) ↔ ∃ key, ((Thread.start L sources.length).after sources.length
        (before.filterMap Entry.arrival?)).policy = .custom key) := by
  have hthreaded : ((start m).play moves).merge.Threaded sources.length :=
    Merge.play_invariant hm (Merge.setUp_threaded hm) (fun h hb hc ht => h.threaded hb hc ht) moves
  exact ⟨Merge.dispatch_appliesWhole, hthreaded, fun _ _ _ _ _ => hthreaded.reaches⟩

/-- The first of two ends reaches a strategy that alternates: it drains the other inlet then, and has given up its policy
when that one ends. -/
theorem play_transits_scripted : ∃ m,
    Merge.setUp (Strategy.alternate Nat) (scripted Nat) .standard [.ofList [1, 3], .ofList [2]] = .ok m ∧
    ((start m).play [.request 9, .poll 60]).merge.Threaded 2 ∧
    ((start m).play [.request 9, .poll 60]).merge.arrivals.map Prod.snd =
      [.element 1, .element 2, .completed, .element 3, .completed] ∧
    ((start m).play [.request 9, .poll 60]).merge.leaps =
      [(.first, .second), (.second, .first), (.first, .drain 0), (.drain 0, .drain 0)] := by
  have hm : Merge.setUp (Strategy.alternate Nat) (scripted Nat) .standard [.ofList [1, 3], .ofList [2]] = .ok _ := rfl
  exact ⟨_, hm, (play_transits hm [.request 9, .poll 60]).2.1, rfl, rfl⟩

end Session
end StreamMerge
