import StreamMerge.Proofs.Backpressure
import StreamMerge.Proofs.Completion
import StreamMerge.Proofs.Uprightness

/-!
# Interleaving without reading ahead

`fair` and `preferred` choose all inlets, so that no inlet is ever polled on the side, and pass every element on. So at
any point between two steps, what the sources have yielded is exactly what was passed on (`Merge.Abreast`), and what was
sent is an interleaving of it (`Session.play_interleaves`).
-/
namespace StreamMerge

variable {α β : Type} {L : Strategy α β} {u : Source α}

/-! ## Elements with their inlets -/

namespace Entry

/-- The element that a source yielded, with its inlet. -/
def pulled? : Entry L → Option (InletId × α)
  | .polled p (.element x) => some (p, x)
  | _ => none

/-- The element that the strategy was handed, with its inlet. -/
def passed? : Entry L → Option (InletId × α)
  | .onElement p x _ _ => some (p, x)
  | _ => none

/-- An entry about neither a poll nor a call of the strategy. -/
def isStill : Entry L → Prop
  | .polled .. | .onElement .. => False
  | _ => True

theorem pulled?_of_isStill {e : Entry L} (h : e.isStill) : e.pulled? = none := by
  cases e <;> first | rfl | cases h

theorem passed?_of_isStill {e : Entry L} (h : e.isStill) : e.passed? = none := by
  cases e <;> first | rfl | cases h

theorem isStill_of_isSideline {e : Entry L} (h : e.isSideline) : e.isStill := by
  cases e <;> first | exact trivial | cases h

theorem isStill_of_isOutcome {e : Entry L} (h : e.isOutcome) : e.isStill := by
  cases e <;> first | exact trivial | cases h

theorem passed?_of_isReading {e : Entry L} (h : Merge.isReading e) : e.passed? = none := by
  cases e <;> first | rfl | cases h

theorem pulled?_polled (p : InletId) (r : Reply α) : (.polled p r : Entry L).pulled? = r.element?.map (p, ·) := by
  cases r <;> rfl

end Entry

/-- `xs` is an interleaving of the lists `part p`: its elements are those of `tagged`, which says of each of them what
list it is from. -/
structure Interleaving (tagged : List (InletId × α)) (part : InletId → List α) (xs : List α) : Prop where
  whole : tagged.map Prod.snd = xs
  parts : ∀ p, (tagged.filter fun t => t.1 = p).map Prod.snd = part p

namespace Merge

/-- The elements that the sources have yielded, in order and each with its inlet. -/
def pulled (m : Merge L u) : List (InletId × α) := m.history.filterMap Entry.pulled?

/-- The elements that the strategy was handed, in order and each with its inlet. -/
def passed (m : Merge L u) : List (InletId × α) := m.history.filterMap Entry.passed?

/-- Of the tagged members of a list, those with one tag. -/
theorem map_filter_filterMap {γ : Type} (f : γ → Option (InletId × α)) (p : InletId) (es : List γ) :
    ((es.filterMap f).filter fun t => t.1 = p).map Prod.snd =
      es.filterMap fun e => (f e).bind fun t => if t.1 = p then some t.2 else none := by
  rw [List.filter_filterMap, List.map_filterMap]
  refine congrArg (List.filterMap · es) (funext fun e => ?_)
  cases f e with
  | none => rfl
  | some t => by_cases ht : t.1 = p <;> simp [Option.filter, ht]

/-- What the source of one inlet has yielded is a part of what all have. -/
theorem yielded_eq_pulled (m : Merge L u) (p : InletId) :
    (m.pulled.filter fun t => t.1 = p).map Prod.snd = m.yielded p := by
  rw [pulled, map_filter_filterMap]
  refine congrArg (List.filterMap · m.history) (funext fun e => ?_)
  cases e with
  | polled k r => cases r <;> rfl
  | _ => rfl

theorem handed_eq_passed (m : Merge L u) (p : InletId) :
    (m.passed.filter fun t => t.1 = p).map Prod.snd = m.handed p := by
  rw [passed, map_filter_filterMap]
  refine congrArg (List.filterMap · m.history) (funext fun e => ?_)
  cases e <;> rfl

theorem pulled_of_history {m m' : Merge L u} {es : List (Entry L)} (h : m'.history = m.history ++ es) :
    m'.pulled = m.pulled ++ es.filterMap Entry.pulled? := by
  rw [pulled, h, List.filterMap_append]
  rfl

theorem passed_of_history {m m' : Merge L u} {es : List (Entry L)} (h : m'.history = m.history ++ es) :
    m'.passed = m.passed ++ es.filterMap Entry.passed? := by
  rw [passed, h, List.filterMap_append]
  rfl

/-! ## Attempts on empty inlets -/

/-- No inlet keeps anything. -/
def Empty (m : Merge L u) : Prop := ∀ (p : InletId) (q : Inlet u), m.inlets[p]? = some q → q.buffer = none

section
variable {m m' : Merge L u} {p : InletId} {q : Inlet u} {a : Arrival α} {order : List InletId}

theorem Polls.pulled {s : u.State} (h : Polls m p q s m') :
    m'.pulled = m.pulled ++ ((u.poll s).reply.element?.map (p, ·)).toList := by
  rw [pulled_of_history h.history, List.filterMap_append, List.filterMap_replicate_of_none rfl, filterMap_singleton,
    Entry.pulled?_polled, List.nil_append]

/-- An inlet that is polled in vain stays empty. -/
theorem Empty.fill_vain (h : m.Empty) (ht : (m.fill p).inletIs p (·.buffer.isSome) = false) :
    (m.fill p).Empty ∧ (m.fill p).pulled = m.pulled := by
  rcases fill_cases m p with hf | ⟨q, s, hf⟩
  · rw [hf]
    exact ⟨h, rfl⟩
  · obtain ⟨again, hr⟩ := hf.pending ht
    refine ⟨fun k q' hq' => ?_, ?_⟩
    · by_cases hk : p = k
      · subst hk
        rw [inletIs_iff_of_some hq'] at ht
        simpa using ht
      · exact h k q' ((getElem?_fill_of_ne hk).symm.trans hq')
    · rw [hf.pulled, hr]
      exact List.append_nil _

/-- What a poll brings is kept. -/
theorem Empty.fill_found (h : m.Empty) (hq : (m.fill p).inlets[p]? = some q) (ha : q.buffer = some a) :
    (m.fill p).pulled = m.pulled ++ (a.element?.map (p, ·)).toList := by
  rcases fill_cases m p with hf | ⟨q₀, s, hf⟩
  · rw [hf] at hq
    rw [h p q hq] at ha
    cases ha
  · have hkept : q.kept = (u.poll s).reply.element? := by
      rw [hf.inlets, List.getElem?_set_self (List.getElem?_eq_some_iff.1 hf.here).1] at hq
      rw [← Option.some.inj hq]
      exact Inlet.kept_store hf.empty _
    rw [hf.pulled, ← hkept, Inlet.kept_eq_element? ha]

theorem Empty.fillUntil_vain : ∀ {ps : List InletId} {m : Merge L u}, m.Empty →
    (fillUntil (·.buffer.isSome) ps m).1 = none →
    (fillUntil (·.buffer.isSome) ps m).2.Empty ∧ (fillUntil (·.buffer.isSome) ps m).2.pulled = m.pulled
  | [], _, h, _ => ⟨h, rfl⟩
  | p :: ps, m, h, hn => by
    rw [fillUntil_cons] at hn ⊢
    split at hn
    · cases hn
    · rename_i ht
      obtain ⟨hempty, hpulled⟩ := h.fill_vain (eq_false_of_ne_true ht)
      obtain ⟨hrest, hrestPulled⟩ := hempty.fillUntil_vain hn
      rw [if_neg ht]
      exact ⟨hrest, hrestPulled.trans hpulled⟩

/-- Where nothing is kept and no inlet is polled on the side, an attempt polls the named inlets only. -/
theorem Empty.seek_eq (h : m.Empty) (hside : m.bystanders order = []) :
    m.seek order = fillUntil (·.buffer.isSome) order m := by
  have hkept : order.find? (m.inletIs · (·.hasElement)) = none := by
    refine List.find?_eq_none.2 fun p _ hp => ?_
    obtain ⟨q, hq, hel⟩ := inletIs_iff.1 hp
    rw [Inlet.hasElement, h p q hq] at hel
    cases hel
  have hended : m.inletIds.find? (m.inletIs · fun q => q.isOpen && q.hasTerminal) = none := by
    refine List.find?_eq_none.2 fun p _ hp => ?_
    obtain ⟨q, hq, hterm⟩ := inletIs_iff.1 hp
    rw [Inlet.hasTerminal, h p q hq, Option.any_none, Bool.and_false] at hterm
    cases hterm
  unfold seek
  rw [hkept]
  dsimp only
  rw [hended]
  dsimp only
  rw [hside]
  rfl

/-- Then an attempt pulls exactly the element that it finds. -/
theorem Empty.seek_found (h : m.Empty) (hside : m.bystanders order = []) (hp : (m.seek order).1 = some p)
    (hq : (m.seek order).2.inlets[p]? = some q) (ha : q.buffer = some a) :
    (m.seek order).2.pulled = m.pulled ++ (a.element?.map (p, ·)).toList := by
  rw [h.seek_eq hside] at hp hq ⊢
  obtain ⟨pre, post, -, hnone, hfill⟩ := fillUntil_found hp
  obtain ⟨hempty, hpulled⟩ := h.fillUntil_vain hnone
  rw [hfill] at hq ⊢
  rw [hempty.fill_found hq ha, hpulled]

theorem Empty.seek_vain (h : m.Empty) (hside : m.bystanders order = []) (hn : (m.seek order).1 = none) :
    (m.seek order).2.pulled = m.pulled := by
  rw [h.seek_eq hside] at hn ⊢
  exact (h.fillUntil_vain hn).2

/-- The element that is taken up is handed over. -/
theorem passed?_handling (m : Merge L u) (p : InletId) (a : Arrival α) (next : L.State) :
    (m.handling p a next).toList.filterMap Entry.passed? = (a.element?.map (p, ·)).toList := by
  cases a with
  | element x => rfl
  | completed => unfold handling; cases m.policy <;> rfl
  | failed c => unfold handling; cases m.policy <;> rfl

/-- Taking an event and handling it pulls nothing, and hands over what was taken. -/
theorem pulled_and_passed_of_taken (m : Merge L u) (p : InletId) (q : Inlet u) (choice : Choice) (a : Arrival α) :
    ((m.putInlet p q).dispatch choice p a).pulled = m.pulled ∧
    ((m.putInlet p q).dispatch choice p a).passed = m.passed ++ (a.element?.map (p, ·)).toList := by
  obtain ⟨ds, hds, hdrop⟩ := extends_putInlet m p q
  obtain ⟨rs, hrs, hout, -⟩ := history_dispatch (m.putInlet p q) choice p a
  rw [hds, List.append_assoc] at hrs
  have hstill : ∀ e ∈ ds, e.isStill := fun e he => by rw [hdrop e he]; trivial
  have hdsPulled : ds.filterMap Entry.pulled? = [] :=
    List.filterMap_eq_nil_iff.2 fun e he => Entry.pulled?_of_isStill (hstill e he)
  have hdsPassed : ds.filterMap Entry.passed? = [] :=
    List.filterMap_eq_nil_iff.2 fun e he => Entry.passed?_of_isStill (hstill e he)
  have hrsPulled : rs.filterMap Entry.pulled? = [] :=
    List.filterMap_eq_nil_iff.2 fun e he => Entry.pulled?_of_isStill (Entry.isStill_of_isOutcome (hout e he))
  have hrsPassed : rs.filterMap Entry.passed? = [] :=
    List.filterMap_eq_nil_iff.2 fun e he => Entry.passed?_of_isStill (Entry.isStill_of_isOutcome (hout e he))
  have hcall : ((m.putInlet p q).handling p a ((m.putInlet p q).transition p a).next).toList.filterMap
      Entry.pulled? = [] := by
    refine List.filterMap_eq_nil_iff.2 fun e he => ?_
    have := isCall_handling he
    cases e <;> first | rfl | cases this
  refine ⟨?_, ?_⟩
  · rw [pulled_of_history hrs, List.filterMap_append, hdsPulled, List.filterMap_cons_none rfl, List.filterMap_append,
      hcall, hrsPulled]
    exact List.append_nil _
  · rw [passed_of_history hrs, List.filterMap_append, hdsPassed, List.filterMap_cons_none rfl, List.filterMap_append,
      passed?_handling, hrsPassed, List.nil_append, List.append_nil]

end

/-! ## Keeping abreast -/

section
variable {L : Strategy α α} {m m' : Merge L u} {p : InletId} {a : Arrival α}

/-- What an interleaving strategy asks for in answer to an event. -/
theorem Interleaves.actions (hi : m.Interleaves) (hL : Passes L) (p : InletId) (a : Arrival α) :
    (m.transition p a).actions = match a with
      | .element x => [.emit x]
      | .completed => []
      | .failed c => [.fail (.sourceFailed c)] := by
  cases a with
  | element x =>
    have ht : m.transition p (.element x) = Strategy.pass m.memory m.state x := hL _ _ _ _ _
    rw [ht]
    rfl
  | completed =>
    unfold transition
    rw [hi.exhaust]
    rfl
  | failed c =>
    unfold transition
    rw [hi.exhaust]
    rfl

theorem Interleaves.emission? (hi : m.Interleaves) (hL : Passes L) (p : InletId) (a : Arrival α) :
    (m.transition p a).emission? = a.element? := by
  unfold Transition.emission?
  rw [hi.actions hL]
  cases a <;> rfl

/-- All open inlets are named, so that there is none to be polled on the side. -/
theorem Interleaves.bystanders (hi : m.Interleaves) (hc : m.Coherent) {choice : Choice} {order : List InletId}
    (hst : m.stage = .attempting choice order) : m.bystanders order = [] := by
  have hfit := hc.fits
  rw [hst] at hfit
  obtain ⟨-, -, rfl, rfl, -⟩ := hfit
  refine List.filter_eq_nil_iff.2 fun p hp => ?_
  rw [Bool.and_eq_true, decide_eq_true_eq]
  rintro ⟨ho, hnot⟩
  exact hnot (Choice.mem_readingOrder.2 ⟨by rw [hi.inlets]; exact hp, ho⟩)

theorem Change.interleaves (h : Change m m') (hL : Passes L) (hreg : m.Regular) (hi : m.Interleaves) :
    m'.Interleaves := by
  rcases h.keeps_or_handles hreg.balanced hreg.coherent with hk | ⟨p, a, hh⟩
  · exact (interleaves_upholds hL).keeps hk h.count hi
  · exact ((interleaves_upholds hL).handles hh h.count trivial hi).1

/-- What the sources have yielded was handed over and emitted, all of it and in order. -/
structure Abreast (m : Merge L u) : Prop where
  pulled : m.pulled = m.passed
  emissions : m.emissions = m.passed.map Prod.snd

/-- What was emitted is an interleaving of what the sources have yielded. -/
theorem Abreast.interleaving (h : m.Abreast) : Interleaving m.passed m.yielded m.emissions :=
  ⟨h.emissions.symm, fun p => by rw [← h.pulled, yielded_eq_pulled]⟩

theorem Abreast.length_pulled (h : m.Abreast) : m.pulled.length = m.emissions.length := by
  rw [h.pulled, h.emissions, List.length_map]

/-- No inlet keeps anything: what is kept is what the source is ahead of the strategy. -/
theorem Abreast.empty (h : m.Abreast) (hb : m.Balanced) (ht : m.Tidy) : m.Empty := by
  intro p q hq
  have hbal := hb p q hq
  cases ho : q.isOpen with
  | false => exact (hbal.sound.closed ho).1
  | true =>
    have hsettled : m.yielded p = m.handed p ++ q.kept.toList := hbal.settled (Inlet.status_ne_of_isOpen ho)
    rw [← m.yielded_eq_pulled, ← m.handed_eq_passed, h.pulled] at hsettled
    have hkept : q.kept.toList = [] := List.self_eq_append_right.1 hsettled
    have hterm := ht p q hq
    cases hbuf : q.buffer with
    | none => rfl
    | some a =>
      rw [Inlet.kept_eq_element? hbuf] at hkept
      rw [Inlet.hasTerminal, hbuf] at hterm
      cases a with
      | element x => cases hkept
      | _ => cases hterm

/-- Nothing is pulled, handed over or emitted. -/
theorem Abreast.of_extends (h : m.Abreast) (hx : Extends (fun e => e.isStill ∧ e.emitted? = none) m m') :
    m'.Abreast := by
  have hpulled : m'.pulled = m.pulled := hx.filterMap_eq fun _ he => Entry.pulled?_of_isStill he.1
  have hpassed : m'.passed = m.passed := hx.filterMap_eq fun _ he => Entry.passed?_of_isStill he.1
  have hem : m'.emissions = m.emissions := hx.filterMap_eq fun _ he => he.2
  exact ⟨by rw [hpulled, hpassed, h.pulled], by rw [hem, hpassed, h.emissions]⟩

/-- **Attempts keep abreast**: what is pulled is taken, handed over and emitted at once. -/
theorem Tries.abreast (h : Tries m m') (hm : m.Abreast) (hL : Passes L) (hi : m.Interleaves) (hb : m.Balanced)
    (hc : m.Coherent) (ht : m.Tidy) : m'.Abreast := by
  have hempty := hm.empty hb ht
  have hpassed : ∀ order, (m.seek order).2.passed = m.passed := fun order =>
    (extends_seek m order).filterMap_eq fun _ => Entry.passed?_of_isReading
  cases h with
  | waits choice order hst hn =>
    have hpulled := hempty.seek_vain (hi.bystanders hc hst) hn
    have hem := emissions_of_extends ((extends_seek m order).mono fun _ => emitted?_of_isReading)
    refine ⟨?_, ?_⟩
    · show (m.seek order).2.pulled = (m.seek order).2.passed
      rw [hpulled, hpassed, hm.pulled]
    · show (m.seek order).2.emissions = (m.seek order).2.passed.map Prod.snd
      rw [hem, hpassed, hm.emissions]
  | accepts choice order p a q hst hp hq ha =>
    have hpulled := hempty.seek_found (hi.bystanders hc hst) hp hq ha
    obtain ⟨htaken, hhanded⟩ := pulled_and_passed_of_taken (m.seek order).2 p q.take.2 choice a
    obtain ⟨reads, outcome, hs⟩ := serves_of_found hb hst hp hq ha
    refine ⟨?_, ?_⟩
    · rw [htaken, hhanded, hpulled, hpassed, hm.pulled]
    · rw [emissions_of_serves hs, hhanded, hpassed, hm.emissions, hi.emission? hL, List.map_append]
      cases a <;> rfl

theorem Step.abreast (h : Step m m') (hm : m.Abreast) (hL : Passes L) (hi : m.Interleaves) (hb : m.Balanced)
    (hc : m.Coherent) (ht : m.Tidy) : m'.Abreast := by
  rcases h.aside_or_tries with ha | htry
  · exact hm.of_extends
      (ha.history.mono fun _ he => ⟨Entry.isStill_of_isSideline he, emitted?_of_isSideline he⟩)
  · exact htry.abreast hm hL hi hb hc ht

theorem Change.abreast (h : Change m m') (hm : m.Abreast) (hL : Passes L) (hi : m.Interleaves) (hb : m.Balanced)
    (hc : m.Coherent) (ht : m.Tidy) : m'.Abreast := by
  cases h with
  | step => exact (step_spec m).abreast hm hL hi hb hc ht
  | abandon => exact hm.of_extends ((extends_releaseAll m).mono fun e ⟨p, he⟩ => he ▸ ⟨trivial, rfl⟩)
  | _ => exact hm.of_extends (.of_eq rfl)

theorem Fresh.abreast {sources : List u.State} (h : Fresh m sources) : m.Abreast :=
  ⟨by rw [pulled, passed, h.history]; rfl, by rw [emissions, passed, h.history]; rfl⟩

/-- Whatever happens to a merge under a strategy that passes everything on, it keeps abreast. -/
theorem Changes.abreast (h : Changes m m') (hL : Passes L) (hreg : m.Regular) (ht : m.Tidy) (hi : m.Interleaves)
    (hm : m.Abreast) : m'.Regular ∧ m'.Tidy ∧ m'.Interleaves ∧ m'.Abreast :=
  h.induction (motive := fun m => m.Regular ∧ m.Tidy ∧ m.Interleaves ∧ m.Abreast)
    (fun _ _ hch ⟨hreg, ht, hi, ha⟩ => ⟨hch.regular hreg, hch.tidy ht hreg.balanced, hch.interleaves hL hreg hi,
      hch.abreast ha hL hi hreg.balanced hreg.coherent ht⟩)
    ⟨hreg, ht, hi, hm⟩

theorem play_abreast (hL : Passes L) {settings : Settings} {sources : List u.State}
    (hm : setUp L u settings sources = .ok m) (hi : m.Interleaves) (moves : List (Move u)) :
    ((Session.start m).play moves).merge.Abreast := by
  have hfresh := setUp_fresh hm
  exact ((Session.play_changes moves (Session.start m)).abreast hL hfresh.regular hfresh.tidy hi hfresh.abreast).2.2.2

/-! ## Completed interleavings -/

variable {ms : List (Merge L u)}

theorem Travels.interleaves (h : Travels m ms m') (hL : Passes L) (hreg : m.Regular) (hi : m.Interleaves) :
    (∀ m₁ ∈ ms, m₁.Interleaves) ∧ m'.Interleaves := by
  induction h with
  | start => exact ⟨fun _ hm => (by cases hm), hi⟩
  | outer htr ho ih =>
    obtain ⟨hall, hi₁⟩ := ih
    exact ⟨hall, ho.change.interleaves hL (htr.regular hreg) hi₁⟩
  | @step ms m₁ htr ha _ ih =>
    obtain ⟨hall, hi₁⟩ := ih
    refine ⟨fun m₂ hm₂ => ?_, (Change.step m₁ ha).interleaves hL (htr.regular hreg) hi₁⟩
    rcases List.mem_append.1 hm₂ with hm₂ | hm₂
    · exact hall m₂ hm₂
    · rw [List.mem_singleton.1 hm₂]
      exact hi₁

/-- An interleaving strategy never asks for the merge to be completed. -/
theorem patient_of_interleaves (hL : Passes L) (h : ∀ m ∈ ms, m.Interleaves) : Patient ms := by
  refine ⟨fun m hm p a _ _ => ?_, fun m hm => ?_⟩
  · rw [(h m hm).actions hL]
    cases a <;> simp
  · rw [(h m hm).exhaust]
    exact nofun

/-- A source of a completed run has not failed. -/
theorem Upright.not_failed (h : m.Upright) (hv : m.verdict? = some (.ok .completed)) : ∀ e ∈ m.history, ¬ e.isFailure := by
  cases h with
  | sound hs => exact hs
  | failed p c before after _ _ _ hv' =>
    rw [hv] at hv'
    cases hv'

/-- If no source has failed, a run that has seen all sources through has polled each of them to its end. -/
theorem SeenThrough.polled_ended {count : Nat} {last : Merge L u} (h : SeenThrough m count last)
    (hsound : ∀ e ∈ m.history, ¬ e.isFailure) {p : InletId} (hp : p < count) :
    ∃ early, EarlyPolls p early ∧ m.dealings p = early ++ [.polled p .ended, .dropped p] := by
  obtain ⟨early, r, hearly, hlast, hd⟩ := h.ended p hp
  have hin : .polled p r ∈ m.history := by
    refine (List.mem_filter.1 (?_ : .polled p r ∈ m.dealings p)).1
    rw [hd]
    simp
  cases r with
  | ended => exact ⟨early, hearly, hd⟩
  | failed c => exact absurd trivial (hsound _ hin)
  | _ => cases hlast

/-- An interleaving that is completed has seen all sources through. -/
theorem play_seenThrough_of_interleaves (hL : Passes L) {settings : Settings} {sources : List u.State}
    (hm : setUp L u settings sources = .ok m) (hi : m.Interleaves) (moves : List (Move u))
    (hv : ((Session.start m).play moves).merge.verdict? = some (.ok .completed)) :
    ∃ last, ((Session.start m).play moves).merge.SeenThrough sources.length last := by
  obtain ⟨last, hlast⟩ := play_completedFrom hm moves hv
  have htravels := Session.play_travels (s := Session.start m) moves (.start (m := m))
  rw [List.nil_append] at htravels
  exact ⟨last, play_seenThrough hm moves hlast
    (patient_of_interleaves hL (htravels.interleaves hL (setUp_fresh hm).regular hi).1)⟩

end
end Merge

/-! ## Forwarding strategies -/

/-- The strategies that forward all that their inlets have. -/
inductive Strategy.Forwards : {α : Type} → Strategy α α → Prop
  | fair {α : Type} : Forwards (Strategy.fair α)
  | preferred {α : Type} : Forwards (Strategy.preferred α)

section
variable {L : Strategy α α}

theorem Strategy.Forwards.passes (h : L.Forwards) : Merge.Passes L := by
  cases h with
  | fair => exact fun _ _ _ _ _ => rfl
  | preferred => exact fun _ _ _ _ _ => rfl

theorem Strategy.Forwards.interleaves (h : L.Forwards) {settings : Settings} {sources : List u.State} {m : Merge L u}
    (hm : Merge.setUp L u settings sources = .ok m) : m.Interleaves := by
  cases h with
  | fair => exact Merge.interleaves_fair hm
  | preferred => exact Merge.interleaves_preferred hm

namespace Session

/-- A session of `count` sources, in which the consumer has taken `seen` out of the queue and so much credit was asked
for, interleaves what the sources yield and never reads ahead. -/
structure Interleaves (s : Session L u) (count : Nat) (seen : List (Delivery α)) (asked : Nat) : Prop where
  /-- Between two steps no inlet keeps anything. -/
  empty : ∀ (p : InletId) (q : Inlet u), s.merge.inlets[p]? = some q → q.buffer = none
  /-- All that the sources have yielded was handed over, in the order in which they yielded it. -/
  abreast : s.merge.passed = s.merge.pulled
  /-- As long as the run goes on, all of it was sent but for what is unsent. -/
  running : s.merge.stage.isFinal = false → s.merge.passed.map Prod.snd = s.merge.sent ++ s.merge.unsent.toList
  /-- While the run waits, what was sent is an interleaving of all that the sources have yielded so far. -/
  suspended : s.merge.awake = false → s.merge.stage.isFinal = false →
    Interleaving s.merge.passed s.merge.yielded s.merge.sent ∧ s.merge.pulled.length = s.merge.sent.length
  /-- No more is read than was asked for. -/
  within : s.merge.pulled.length ≤ asked
  /-- What was sent to a consumer that receives is what it has seen and what is still in the queue. -/
  received : s.merge.link.receiving = true → s.merge.deliveries = seen ++ s.merge.link.deliveries
  /-- In a run that was completed every source has reported its end, and what was sent interleaves all they yielded. -/
  completed : s.merge.verdict? = some (.ok .completed) →
    (∀ p, p < count → ∃ early, EarlyPolls p early ∧
      s.merge.dealings p = early ++ [.polled p .ended, .dropped p]) ∧
    Interleaving s.merge.passed s.merge.yielded s.merge.sent
  /-- This is all that was forecast for the sources. -/
  exhausted : s.merge.verdict? = some (.ok .completed) → ∀ (w : u.Forecast) (forecasts : List (List α)),
    s.Staged w forecasts → ∀ p xs, forecasts[p]? = some xs → s.merge.yielded p = xs

/-- Of a source that was seen through nothing is still to come. -/
theorem Staged.yielded_of_seenThrough {s : Session L u} {w : u.Forecast} {forecasts : List (List α)}
    (h : s.Staged w forecasts) {count : Nat} {last : Merge L u} (hlast : s.merge.SeenThrough count last)
    (hcount : s.merge.inlets.length = count) {p : InletId} {xs : List α} (hxs : forecasts[p]? = some xs) :
    s.merge.yielded p = xs := by
  obtain ⟨rest, rfl, hrest⟩ := h.rest hxs
  have hp : p < count := by
    rw [← hcount, h.count]
    exact (List.getElem?_eq_some_iff.1 hxs).1
  have hnone : rest = [] := by
    rcases hlast.closed p hp with hs | ⟨c, hs⟩
    · exact hrest _ hs InletStatus.noConfusion InletStatus.noConfusion
    · exact hrest _ hs InletStatus.noConfusion InletStatus.noConfusion
  rw [hlast.handed p hp, hnone, List.append_nil]

/-- **Lossless interleaving without reading ahead.** For both strategies, all sources and every order of moves. -/
theorem play_interleaves (hL : L.Forwards) {settings : Settings} {sources : List u.State} {m : Merge L u}
    (hm : Merge.setUp L u settings sources = .ok m) (moves : List (Move u)) :
    ((start m).play moves).Interleaves sources.length ((start m).seen moves) ((start m).asked moves) := by
  have hi := hL.interleaves hm
  have hreg := Merge.play_regular hm moves
  have habreast := Merge.play_abreast hL.passes hm hi moves
  have hforth := Merge.play_forthright hm moves
  have hupright := (Merge.interleaves_upholds hL.passes).play hm hi moves trivial
  have hinterleaving := habreast.interleaving
  refine ⟨habreast.empty (Merge.play_balanced hm moves) (Merge.play_tended hm moves).tidy, habreast.pulled.symm,
    fun hr => ?_, fun ha hr => ?_, ?_, deliveries_eq_seen hm moves, fun hv => ?_,
    fun hv w forecasts hstaged p xs hxs => ?_⟩
  · rw [← habreast.emissions, hforth.running hr]
  · -- A run that waits has sent all that was emitted.
    have hunsent : ((start m).play moves).merge.unsent = none := (hreg.coherent.idle ha).resolve_right (by simp [hr])
    have hsent := hforth.running hr
    rw [hunsent, Option.toList_none, List.append_nil] at hsent
    rw [habreast.length_pulled, ← hsent]
    exact ⟨hinterleaving, rfl⟩
  · rw [habreast.length_pulled]
    exact Nat.le_trans (Merge.emissions_le_granted hreg.coherent (Merge.play_solvent hm moves))
      (granted_le_asked hm moves)
  · obtain ⟨last, hlast⟩ := Merge.play_seenThrough_of_interleaves hL.passes hm hi moves hv
    rw [hforth.completed hreg.coherent hv]
    exact ⟨fun p hp => hlast.polled_ended (hupright.not_failed hv) hp, hinterleaving⟩
  · obtain ⟨last, hlast⟩ := Merge.play_seenThrough_of_interleaves hL.passes hm hi moves hv
    exact hstaged.yielded_of_seenThrough hlast (Merge.play_count hm moves) hxs

/-- Under the fair strategy the credit ends, and the run waits; under the preferring one it is completed, although the
first source has nothing at first. -/
theorem play_interleaves_scripted : ∃ m n,
    Merge.setUp (Strategy.fair Nat) (scripted Nat) .standard [.ofList [1, 3], .ofList [2, 4]] = .ok m ∧
    Merge.setUp (Strategy.preferred Nat) (scripted Nat) .standard [.ofItems [.pend 1, .element 1], .ofList [2]] = .ok n ∧
    ((start m).play [.request 3, .poll 40]).Interleaves 2 [] 3 ∧
    ((start m).play [.request 3, .poll 40]).merge.awake = false ∧
    ((start m).play [.request 3, .poll 40]).merge.stage.isFinal = false ∧
    ((start m).play [.request 3, .poll 40]).merge.passed = [(0, 1), (1, 2), (0, 3)] ∧
    ((start n).play [.request 9, .poll 60, .drain]).Interleaves 2 [.element 2, .element 1, .complete] 9 ∧
    ((start n).play [.request 9, .poll 60, .drain]).merge.verdict? = some (.ok .completed) := by
  have hm : Merge.setUp (Strategy.fair Nat) (scripted Nat) .standard [.ofList [1, 3], .ofList [2, 4]] = .ok _ := rfl
  have hn : Merge.setUp (Strategy.preferred Nat) (scripted Nat) .standard
      [.ofItems [.pend 1, .element 1], .ofList [2]] = .ok _ := rfl
  exact ⟨_, _, hm, hn, play_interleaves .fair hm [.request 3, .poll 40], rfl, rfl, rfl,
    play_interleaves .preferred hn [.request 9, .poll 60, .drain], rfl⟩

end Session
end
end StreamMerge
