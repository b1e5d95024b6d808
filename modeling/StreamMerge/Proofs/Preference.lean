import StreamMerge.Proofs.Bypass
import StreamMerge.Strategy.Rules

/-!
# Preference

Whom a choice prefers goes first in every attempt. Under the preferring strategy nothing is ever read ahead, so the
others are served only when the preferred inlet has ended or has just answered that it has nothing yet, and they take
turns among themselves (`Session.play_prefers`). A strategy that changes its choices does read ahead; then a preferred
inlet that is ready is passed over exactly if it keeps nothing and one of the others keeps an element
(`Session.route_passed_over_iff`), and that can happen (`Session.route_passed_over`).
-/
namespace StreamMerge

variable {α β : Type} {L : Strategy α β} {u : Source α}

namespace Merge

/-! ## Attempts in the history -/

/-- The step from `m` hands the element `x` of `k` over under `choice`, after it has written `reads`. -/
def HandsOver (m : Merge L u) (reads : List (Entry L)) (choice : Choice) (k : InletId) (x : α) : Prop :=
  ∃ rest, m.step.history = m.history ++ reads ++ .arrived choice k (.element x) :: rest

section
variable {m m' : Merge L u} {ms : List (Merge L u)} {reads : List (Entry L)} {choice : Choice} {k : InletId} {x : α}

/-- The event that is handed over is the one that the step takes up. -/
theorem HandsOver.serves (h : m.HandsOver reads choice k x) (hb : m.Balanced) :
    ∃ outcome, Serves m choice k (.element x) reads outcome m.step := by
  obtain ⟨rest, hrest⟩ := h
  rw [List.append_assoc] at hrest
  have hsilent : ¬ Extends (fun e => ¬ e.isArrival) m m.step := by
    rintro ⟨es, hes, hnone⟩
    have hmem : .arrived choice k (.element x) ∈ es := by
      rw [List.append_cancel_left (hes.symm.trans hrest)]
      simp
    exact hnone _ hmem trivial
  rcases (step_spec m).aside_or_tries with ha | htry
  · exact absurd (ha.history.mono fun e => Entry.not_isArrival_of_isSideline) hsilent
  · rcases htry.serves hb with hread | ⟨c, p, a, reads', outcome, hs⟩
    · exact absurd (hread.mono fun e => Entry.not_isArrival_of_isReading) hsilent
    · have hh := hs.history
      rw [List.append_assoc] at hh
      obtain ⟨rfl, heq, -⟩ := split_unique (P := Entry.isArrival) (List.append_cancel_left (hrest.symm.trans hh)) trivial
        (fun e he => hs.not_isArrival_reads he) (fun e he => hs.not_isArrival_rest he)
      cases heq
      exact ⟨outcome, hs⟩

/-- Between two steps no event is taken up. -/
theorem Outer.silent (h : Outer m m') (hreg : m.Regular) : Extends (fun e => ¬ e.isArrival) m m' := by
  have hstage := h.stage
  cases h.change with
  | step =>
    rcases (step_spec m).aside_or_tries with ha | htry
    · exact ha.history.mono fun e => Entry.not_isArrival_of_isSideline
    · generalize m.step = m' at htry hstage
      cases htry with
      | waits choice order => exact (extends_seek m order).mono fun e => Entry.not_isArrival_of_isReading
      | accepts choice order p a q hst hp hq ha =>
        -- After an event the run stands at another stage.
        exfalso
        have hacc : Accepts m p a _ := ⟨choice, order, q, hst, hp, hq, ha⟩
        rw [hst] at hstage
        rcases hacc.stage hreg.balanced hreg.coherent with ⟨e, hs⟩ | ⟨hs, -⟩ | ⟨hs, -⟩ <;>
          rw [hs] at hstage <;> rcases hstage with hstage | hstage <;> cases hstage
  | abandon => exact (extends_releaseAll m).mono fun e ⟨p, he⟩ => by rw [he]; exact id
  | _ => exact .of_eq rfl

/-- What is met on a route is reached from its start. -/
theorem Travels.reaches (h : Travels m ms m') : ∀ m₁ ∈ ms, Changes m m₁ := by
  induction h with
  | start => exact fun m₁ hm₁ => by cases hm₁
  | outer _ _ ih => exact ih
  | step htr _ _ ih =>
    intro m₂ hm₂
    rcases List.mem_append.1 hm₂ with hm₂ | hm₂
    · exact ih m₂ hm₂
    · rw [List.mem_singleton.1 hm₂]
      exact htr.changes

/-- **Every element in the history was handed over by a step on the route.** -/
theorem Travels.handsOver (h : Travels m ms m') (hreg : m.Regular) (hnew : m.history = []) :
    ∀ before choice k x after, m'.history = before ++ .arrived choice k (.element x) :: after →
      ∃ m₁ ∈ ms, ∃ reads, before = m₁.history ++ reads ∧ m₁.HandsOver reads choice k x := by
  induction h with
  | start =>
    intro before choice k x after heq
    rw [hnew] at heq
    exact absurd (congrArg List.length heq) (by simp)
  | outer htr ho ih =>
    intro before choice k x after heq
    obtain ⟨es, hes, hnone⟩ := ho.silent (htr.regular hreg)
    rw [hes] at heq
    rcases split_append heq with ⟨zs, hbefore, -⟩ | ⟨zs, -, hlate⟩
    · exact ih before choice k x zs hbefore
    · exact absurd trivial (hnone (.arrived choice k (.element x)) (by rw [hlate]; simp))
  | @step ms m₁ htr _ _ ih =>
    intro before choice k x after heq
    obtain ⟨es, hes, -⟩ := (step_spec m₁).extends
    rw [hes] at heq
    rcases split_append heq with ⟨zs, hbefore, -⟩ | ⟨zs, rfl, hlate⟩
    · obtain ⟨m₂, hm₂, hfound⟩ := ih before choice k x zs hbefore
      exact ⟨m₂, List.mem_append_left _ hm₂, hfound⟩
    · exact ⟨m₁, by simp, zs, rfl, after, by rw [hes, hlate, List.append_assoc]⟩

end
end Merge

namespace Session

variable {settings : Settings} {sources : List u.State} {m m₁ : Merge L u}

/-- Whatever is preserved by every change holds wherever a run takes a step. -/
theorem route_changes (moves : List (Move u)) (hm₁ : m₁ ∈ (start m).route moves) : Merge.Changes m m₁ := by
  have htravels := play_travels (s := start m) moves (.start (m := m))
  rw [List.nil_append] at htravels
  exact htravels.reaches m₁ hm₁

theorem route_handsOver (hm : Merge.setUp L u settings sources = .ok m) (moves : List (Move u))
    {before after : List (Entry L)} {choice : Choice} {k : InletId} {x : α}
    (heq : ((start m).play moves).merge.history = before ++ .arrived choice k (.element x) :: after) :
    ∃ m₁ ∈ (start m).route moves, ∃ reads, before = m₁.history ++ reads ∧ m₁.HandsOver reads choice k x := by
  have hfresh := Merge.setUp_fresh hm
  have htravels := play_travels (s := start m) moves (.start (m := m))
  rw [List.nil_append] at htravels
  exact htravels.handsOver hfresh.regular hfresh.history before choice k x after heq

end Session

/-! ## Going first -/

namespace Merge

variable {m m' : Merge L u} {reads : List (Entry L)} {choice : Choice} {p k : InletId} {x : α}

/-- The inlet `p` is open, and keeps an element or gets one when its source is polled next. -/
def Ready (m : Merge L u) (p : InletId) : Prop :=
  ∃ q, m.inlets[p]? = some q ∧ q.isOpen = true ∧
    (q.hasElement = true ∨ ∃ s x, q.source = some s ∧ (u.poll s).reply = .element x)

theorem Ready.isOpen (h : m.Ready p) : m.inletIs p (·.isOpen) = true := by
  obtain ⟨q, hq, ho, -⟩ := h
  exact inletIs_iff.2 ⟨q, hq, ho⟩

/-- A poll of an inlet that is ready brings an element. -/
theorem Ready.fill (h : m.Ready p) (hpoll : m.Pollable p) : (m.fill p).inletIs p (·.buffer.isSome) = true := by
  obtain ⟨q, hq, -, hnext⟩ := h
  obtain ⟨q', s, hq', hb, hs⟩ := hpoll
  obtain rfl := Option.some.inj (hq.symm.trans hq')
  obtain ⟨s', x, hs', hreply⟩ := hnext.resolve_left fun hel => by
    rw [Inlet.hasElement, hb] at hel
    cases hel
  obtain rfl := Option.some.inj (hs.symm.trans hs')
  refine inletIs_iff.2 ⟨q.store (u.poll s), ?_, ?_⟩
  · rw [(fill_polls hq hb hs).inlets, List.getElem?_set_self (List.getElem?_eq_some_iff.1 hq).1]
  · rw [Inlet.buffer_store hb, hreply]
    rfl

/-- **Who goes first and is ready is passed over only for what was read ahead.** -/
theorem seek_first {rest : List InletId} {q : Inlet u} (hlive : ∀ r ∈ p :: rest, m.Live r) (hready : m.Ready p)
    (hk : (m.seek (p :: rest)).1 = some k) (hq : (m.seek (p :: rest)).2.inlets[k]? = some q)
    (hx : q.buffer = some (.element x)) :
    k = p ∨ m.inletIs p (·.hasElement) = false ∧ k ∈ rest ∧ m.inletIs k (·.hasElement) = true := by
  rcases seek_cases m (p :: rest) with ⟨r, hr, hs⟩ | ⟨r, hr, ht⟩ | ⟨hkept, hended, hs⟩
  · rw [hs] at hk
    obtain rfl := Option.some.inj hk
    have hel : m.inletIs r (·.hasElement) = true := List.find?_some (p := (m.inletIs · (·.hasElement))) hr
    cases hp : m.inletIs p (·.hasElement) with
    | true =>
      rw [List.find?_cons_of_pos (by exact hp)] at hr
      exact Or.inl (Option.some.inj hr).symm
    | false =>
      rw [List.find?_cons_of_neg (by rw [hp]; exact Bool.false_ne_true)] at hr
      exact Or.inr ⟨rfl, List.mem_of_find?_eq_some hr, hel⟩
  · obtain rfl := Option.some.inj (hr.symm.trans hk)
    rw [inletIs_iff_of_some hq, Inlet.hasTerminal, hx] at ht
    cases ht
  · have hpoll := pollable_bystanders hlive hkept hended p (by simp)
    have hnot : p ∉ m.bystanders (p :: rest) := by
      unfold bystanders
      simp
    have hready' : (fillUntil (·.hasTerminal) (m.bystanders (p :: rest)) m).2.Ready p := by
      obtain ⟨q, hq, hrest⟩ := hready
      exact ⟨q, (getElem?_fillUntil _ _ m hnot).trans hq, hrest⟩
    rw [hs, fillUntil_cons, if_pos (hready'.fill hpoll)] at hk
    exact Or.inl (Option.some.inj hk).symm

/-- What is kept by a named inlet goes before anything that has to be polled for. -/
theorem seek_kept {order : List InletId} {r : InletId} (hk : (m.seek order).1 = some k) (hr : r ∈ order)
    (hel : m.inletIs r (·.hasElement) = true) : m.inletIs k (·.hasElement) = true := by
  have hsome : (order.find? (m.inletIs · (·.hasElement))).isSome = true := List.find?_isSome.2 ⟨r, hr, hel⟩
  obtain ⟨k', hk'⟩ := Option.isSome_iff_exists.1 hsome
  unfold seek at hk
  rw [hk'] at hk
  obtain rfl := Option.some.inj hk
  exact List.find?_some (p := (m.inletIs · (·.hasElement))) hk'

/-- The order of an attempt is that of the choice under which an element of it is handed over. -/
theorem Serves.ordered {outcome : List (Entry L)} {a : Arrival α} (h : Serves m choice k a reads outcome m')
    (hc : m.Coherent) :
    ∃ order q, choice = L.choice m.memory m.state ∧ order = choice.readingOrder m.turn (m.inletIs · (·.isOpen)) ∧
      (m.seek order).1 = some k ∧ (m.seek order).2.inlets[k]? = some q ∧ q.buffer = some a ∧
      (a.isTerminal = false → (m.seek order).2.history = m.history ++ reads) := by
  obtain ⟨order, q, hst, hk, hq, hx, hreads⟩ := h.found
  have hfit := hc.fits
  rw [hst] at hfit
  obtain ⟨-, -, hchoice, horder, -⟩ := hfit
  exact ⟨order, q, hchoice, horder, hk, hq, hx, hreads⟩

/-- When the inlet `p` that is preferred is ready, it is passed over exactly for elements that were read ahead. -/
theorem HandsOver.passed_over_iff {others : List InletId} (h : m.HandsOver reads (.preferred p others) k x)
    (hb : m.Balanced) (hc : m.Coherent) (hready : m.Ready p) :
    k ≠ p ↔ m.inletIs p (·.hasElement) = false ∧ ∃ r ∈ others, m.inletIs r (·.hasElement) = true := by
  obtain ⟨outcome, hs⟩ := h.serves hb
  obtain ⟨order, q, -, horder, hk, hq, hx, -⟩ := hs.ordered hc
  have hlive : ∀ r ∈ order, m.Live r := fun r hr => live_of_mem hb (.preferred p others) (horder ▸ hr)
  have hfirst : order = p ::
      (Choice.rotation m.turn (m.inletIs · (·.isOpen)) others).filter (· ≠ p) := by
    rw [horder, Choice.readingOrder, if_pos hready.isOpen]
    rfl
  constructor
  · intro hkp
    rw [hfirst] at hlive hk hq
    obtain ⟨hnone, hmem, hel⟩ := (seek_first hlive hready hk hq hx).resolve_left hkp
    exact ⟨hnone, k, (Choice.mem_rotation.1 (List.mem_filter.1 hmem).1).1, hel⟩
  · rintro ⟨hnone, r, hr, hel⟩ rfl
    -- Whoever keeps an element is open, and so is tried in this attempt.
    obtain ⟨q', hq', hel'⟩ := inletIs_iff.1 hel
    obtain ⟨y, hy⟩ := Inlet.hasElement_iff.1 hel'
    have hopen : m.inletIs r (·.isOpen) = true :=
      inletIs_iff.2 ⟨q', hq', (hb r q' hq').sound.isOpen_of_buffer (by
        show q'.buffer.isSome = true
        rw [hy]
        rfl)⟩
    have hmem : r ∈ order := horder ▸ Choice.mem_readingOrder.2 ⟨by simp [Choice.inlets, hr], hopen⟩
    rw [seek_kept hk hmem hel] at hnone
    cases hnone

end Merge

/-! ## The preferring strategy -/

theorem Strategy.rotatesFrom_preferred : (Strategy.preferred α).RotatesFrom 1 := by
  intro memory state p
  show decide (p ≠ 0) = decide (1 ≤ p)
  exact decide_eq_decide.2 (Nat.pos_iff_ne_zero (n := p)).symm

/-- Where nothing is kept, an element of another inlet than the first in the order is handed over only after the first
one has answered that it has nothing yet. -/
theorem Merge.Empty.asked_first {m m' : Merge L u} {choice : Choice} {p k : InletId} {x : α} {rest : List InletId}
    {reads outcome : List (Entry L)} (h : m.Empty) (hs : Serves m choice k (.element x) reads outcome m')
    (hb : m.Balanced) (hc : m.Coherent) (hkp : k ≠ p)
    (horder : choice.readingOrder m.turn (m.inletIs · (·.isOpen)) = p :: rest) :
    ∃ again, .polled p (.pending again) ∈ reads := by
  obtain ⟨order, q, -, hord, hk, hq, hx, hreads⟩ := hs.ordered hc
  have hlive : ∀ r ∈ order, m.Live r := fun r hr => live_of_mem hb choice (hord ▸ hr)
  rcases seek_element hlive (hord ▸ choice.nodup_readingOrder _ _) hk hq hx with
    ⟨hkept, -⟩ | ⟨pre, post, es, es', hsplit, hes, hasked⟩
  · have hel : m.inletIs k (·.hasElement) = true := List.find?_some (p := (m.inletIs · (·.hasElement))) hkept
    obtain ⟨q', hq', hel⟩ := inletIs_iff.1 hel
    rw [Inlet.hasElement, h k q' hq'] at hel
    cases hel
  · rw [hord, horder] at hsplit
    have hmem : p ∈ pre := by
      cases pre with
      | nil => exact absurd (List.cons.inj hsplit).1.symm hkp
      | cons r pre => simp [(List.cons.inj hsplit).1]
    obtain ⟨again, hpolled⟩ := hasked p hmem
    rw [hreads rfl, List.append_assoc, List.append_assoc] at hes
    rw [List.append_cancel_left hes]
    exact ⟨again, List.mem_append_left _ hpolled⟩

namespace Session

/-- A merge of `count` inputs has run through `history`, and on the way has taken its steps from the states `ms`; its
first inlet went before the others, and these took turns. -/
structure Prefers (count : Nat) (history : List (Entry L)) (ms : List (Merge L u)) : Prop where
  /-- An element of another inlet is handed over only in an attempt before which the first inlet had ended, or in the
  course of which its source has answered that it has nothing yet. -/
  first : ∀ before choice k x after, history = before ++ .arrived choice k (.element x) :: after → k ≠ 0 →
    ∃ m ∈ ms, ∃ reads, before = m.history ++ reads ∧ m.HandsOver reads choice k x ∧
      (m.inletIs 0 (·.status.isTerminal) = true ∨ ∃ again, .polled 0 (.pending again) ∈ reads)
  /-- Of as many elements of other inlets in a row as there are other inlets, whatever of the first inlet lies between
  them, one is of `p`, if its source is not given up by the end of them, and meanwhile answers every poll with an
  element. -/
  bypass : ∀ before during after p, history = before ++ during ++ after → 1 ≤ p → p < count →
    .dropped p ∉ before ++ during → (∀ r, .polled p r ∈ during → r.element?.isSome = true) →
    count - 1 ≤ ((served during).filter fun k => 1 ≤ k).length → p ∈ served during

/-- **Preference and bounded bypass of the preferring strategy.** For all sources and every order of moves. -/
theorem play_prefers {settings : Settings} {sources : List u.State} {m : Merge (Strategy.preferred α) u}
    (hm : Merge.setUp (Strategy.preferred α) u settings sources = .ok m) (moves : List (Move u)) :
    Prefers sources.length ((start m).play moves).merge.history ((start m).route moves) := by
  have hfresh := Merge.setUp_fresh hm
  constructor
  · intro before choice k x after heq hk
    obtain ⟨m₁, hm₁, reads, rfl, hover⟩ := route_handsOver hm moves heq
    refine ⟨m₁, hm₁, reads, rfl, hover, ?_⟩
    obtain ⟨hreg, ht, hi, ha⟩ := (route_changes moves hm₁).abreast Strategy.Forwards.preferred.passes hfresh.regular
      hfresh.tidy (Strategy.Forwards.preferred.interleaves hm) hfresh.abreast
    obtain ⟨outcome, hs⟩ := hover.serves hreg.balanced
    obtain ⟨-, -, hchoice, -⟩ := hs.ordered hreg.coherent
    cases ho : m₁.inletIs 0 (·.isOpen) with
    | true =>
      have horder : choice.readingOrder m₁.turn (m₁.inletIs · (·.isOpen)) =
          0 :: (Choice.rotation m₁.turn (m₁.inletIs · (·.isOpen)) m₁.memory).filter (· ≠ 0) := by
        rw [hchoice]
        show (if m₁.inletIs 0 (·.isOpen) = true then [0] else []) ++ _ = _
        rw [ho]
        rfl
      exact Or.inr ((ha.empty hreg.balanced ht).asked_first hs hreg.balanced hreg.coherent hk horder)
    | false =>
      obtain ⟨q, hq⟩ : ∃ q, m₁.inlets[0]? = some q :=
        ⟨_, List.getElem?_eq_getElem (Nat.zero_lt_of_lt (Merge.lt_of_isOpen hs.isOpen))⟩
      rw [Merge.inletIs_iff_of_some hq, Inlet.isOpen, Bool.not_eq_false'] at ho
      exact Or.inl (Merge.inletIs_iff.2 ⟨q, hq, ho⟩)
  · intro before during after p heq hlo hp hopen hready hmany
    have hcourteous := play_courteous .preferred Strategy.rotatesFrom_preferred hm moves
    have hrotated := Courteous.rotated_eq_filter hcourteous heq
    rw [← hrotated] at hmany
    have hmem := hcourteous.mem_rotated heq hlo (openAfter_eq_true.2 ⟨hp, hopen⟩) hready hmany
    rw [hrotated] at hmem
    exact (List.mem_filter.1 hmem).1

/-- The first source has nothing for a while and comes to an end; the second is always ready. -/
theorem play_prefers_scripted : ∃ m,
    Merge.setUp (Strategy.preferred Nat) (scripted Nat) .standard
      [.ofItems [.element 1, .pend 2, .element 2], .ofItems [.forever 3], .ofList [4]] = .ok m ∧
    Prefers 3 ((start m).play [.request 5, .poll 80]).merge.history ((start m).route [.request 5, .poll 80]) ∧
    served ((start m).play [.request 5, .poll 80]).merge.history = [0, 1, 2, 0, 1] := by
  have hm : Merge.setUp (Strategy.preferred Nat) (scripted Nat) .standard
      [.ofItems [.element 1, .pend 2, .element 2], .ofItems [.forever 3], .ofList [4]] = .ok _ := rfl
  exact ⟨_, hm, play_prefers hm [.request 5, .poll 80], by decide⟩

/-! ## All strategies -/

/-- **When a preferred inlet is passed over.** For every strategy, all sources and every order of moves: of an attempt
that hands an element over under a choice that prefers `p`, while `p` is ready, this element is of another inlet exactly
if `p` keeps nothing when the attempt begins and one of the others keeps an element. -/
theorem route_passed_over_iff {settings : Settings} {sources : List u.State} {m m₁ : Merge L u}
    (hm : Merge.setUp L u settings sources = .ok m) (moves : List (Move u)) (hm₁ : m₁ ∈ (start m).route moves)
    {p k : InletId} {others : List InletId} {x : α} (reads : List (Entry L))
    (hover : m₁.HandsOver reads (.preferred p others) k x) (hready : m₁.Ready p) :
    k ≠ p ↔ m₁.inletIs p (·.hasElement) = false ∧ ∃ r ∈ others, m₁.inletIs r (·.hasElement) = true := by
  have hreg := (route_changes moves hm₁).regular (Merge.setUp_fresh hm).regular
  exact hover.passed_over_iff hreg.balanced hreg.coherent hready

/-- Both sources are ready, and nothing is kept: the preferred one is not passed over. -/
theorem route_passed_over_iff_scripted : ∃ m m₁,
    Merge.setUp (Strategy.preferred Nat) (scripted Nat) .standard [.ofList [1], .ofList [2]] = .ok m ∧
    m₁ ∈ (start m).route [.request 2, .poll 40] ∧
    m₁.HandsOver [.polled 0 (.element 1)] (.preferred 0 [1]) 0 1 ∧ m₁.Ready 0 ∧
    ((0 : InletId) ≠ 0 ↔ m₁.inletIs 0 (·.hasElement) = false ∧ ∃ r ∈ [1], m₁.inletIs r (·.hasElement) = true) := by
  have hm : Merge.setUp (Strategy.preferred Nat) (scripted Nat) .standard [.ofList [1], .ofList [2]] = .ok _ := rfl
  refine ⟨_, _, hm, List.mem_of_getElem? (i := 4) rfl, ⟨_, rfl⟩, ⟨_, rfl, rfl, Or.inr ⟨_, 1, rfl, rfl⟩⟩, ?_⟩
  exact route_passed_over_iff hm [.request 2, .poll 40] (List.mem_of_getElem? (i := 4) rfl) (x := 1)
    [.polled 0 (.element 1)] ⟨_, rfl⟩ ⟨_, rfl, rfl, Or.inr ⟨_, 1, rfl, rfl⟩⟩

end Session

/-- A strategy that begins with an element of the first inlet, and then prefers this inlet to the other one. -/
def headStart : RuleTable where
  name := "HeadStart"
  start := 0
  policy := .exhaust
  handles := .all
  states := [(.one 0, ⟨[], [.emitElement, .goto 1]⟩), (.preferred 0 [1], ⟨[], [.emitElement]⟩)]
  policies := []
  governsEnds := false

/-- The preferred inlet is ready, and passed over: the element of the other one was read ahead in the first state. -/
theorem Session.route_passed_over : ∃ m m₁,
    Merge.setUp headStart.strategy (scripted String) .standard [.ofList ["a", "c"], .ofList ["b"]] = .ok m ∧
    m₁ ∈ (start m).route [.request 2, .poll 40] ∧ m₁.Ready 0 ∧ m₁.HandsOver [] (.preferred 0 [1]) 1 "b" := by
  have hm : Merge.setUp headStart.strategy (scripted String) .standard [.ofList ["a", "c"], .ofList ["b"]] =
      .ok _ := rfl
  exact ⟨_, _, hm, List.mem_of_getElem? (i := 9) rfl, ⟨_, rfl, rfl, Or.inr ⟨_, "c", rfl, rfl⟩⟩, _, rfl⟩

end StreamMerge
