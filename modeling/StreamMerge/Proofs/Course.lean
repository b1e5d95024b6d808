import StreamMerge.Proofs.Books
import StreamMerge.Proofs.Supply

/-!
# The course of a strategy

What a change of a merge means to its strategy: either it `Keeps` everything that the strategy knows of, or it
`Accepts` one event (`Change.keeps_or_accepts`) and so `Handles` it. An invariant of a strategy is shown with these two
cases alone. What was sent to the consumer follows from what was emitted (`Forthright`).
-/
namespace StreamMerge

variable {α β : Type} {L : Strategy α β} {u : Source α}

/-! ## Statuses -/

/-- The status of an inlet that had this one when it was released. -/
def InletStatus.release : InletStatus → InletStatus
  | .live => .cancelled
  | t => t

/-- The status of an inlet after this was taken from it. -/
def Arrival.status : Arrival α → InletStatus
  | .element _ => .live
  | .completed => .completed
  | .failed c => .failed c

/-- The element that arrives. -/
def Arrival.element? : Arrival α → Option α
  | .element x => some x
  | _ => none

theorem InletStatus.release_eq_completed {t : InletStatus} : t.release = .completed ↔ t = .completed := by
  cases t <;> simp [release]

namespace Inlet

theorem status_release_eq (q : Inlet u) : q.release.2.status = q.status.release := by
  rw [status_release]
  unfold isOpen InletStatus.isTerminal InletStatus.release
  cases q.status <;> rfl

theorem status_take {q : Inlet u} (hq : q.Sound) {a : Arrival α} (ha : q.buffer = some a) :
    q.take.2.status = a.status := by
  unfold take
  rw [ha]
  cases a with
  | element x => exact isOpen_iff.1 (hq.isOpen_of_buffer (by rw [ha]; rfl))
  | completed => rfl
  | failed c => rfl

theorem kept_eq_element? {q : Inlet u} {a : Arrival α} (ha : q.buffer = some a) : q.kept = a.element? := by
  unfold kept
  rw [ha]
  cases a <;> rfl

end Inlet

/-- The run is about to end once everything is delivered. -/
def Stage.closing : Stage → Bool
  | .settling closing | .draining (.deliver closing) | .awaiting (.deliver closing) => closing
  | _ => false

namespace Merge

/-- The status of the inlet `p`, if it exists. -/
def status? (m : Merge L u) (p : InletId) : Option InletStatus := m.inlets[p]?.map (·.status)

/-- The inlet `p` has this status, or had it when the run ended. -/
def Retains (m : Merge L u) (p : InletId) (status : Option InletStatus) : Prop :=
  m.status? p = status ∨ m.stage.isFinal = true ∧ m.status? p = status.map .release

theorem Retains.completed_iff {m : Merge L u} {p : InletId} {status : Option InletStatus} (h : m.Retains p status) :
    m.status? p = some .completed ↔ status = some .completed := by
  rcases h with h | ⟨-, h⟩
  · rw [h]
  · rw [h, Option.map_eq_some_iff]
    constructor
    · rintro ⟨t, rfl, ht⟩
      rw [InletStatus.release_eq_completed.1 ht]
    · intro hs
      exact ⟨_, hs, rfl⟩

theorem Retains.isSome_iff {m : Merge L u} {p : InletId} {status : Option InletStatus} (h : m.Retains p status) :
    (m.status? p).isSome = status.isSome := by
  rcases h with h | ⟨-, h⟩ <;> rw [h]
  exact Option.isSome_map

theorem Retains.running {m : Merge L u} {p : InletId} {status : Option InletStatus} (h : m.Retains p status)
    (hf : m.stage.isFinal = false) : m.status? p = status := by
  rcases h with h | ⟨h, -⟩
  · exact h
  · rw [hf] at h
    cases h

theorem inletIs_isOpen_iff {m : Merge L u} {p : InletId} :
    m.inletIs p (·.isOpen) = true ↔ m.status? p = some .live := by
  rw [inletIs_iff]
  unfold status?
  rw [Option.map_eq_some_iff]
  exact exists_congr fun q => and_congr_right fun _ => Inlet.isOpen_iff

/-- When no inlet is open, every one has ended in some way. -/
theorem ne_live_of_openInlets {m : Merge L u} (h : m.openInlets = 0) (p : InletId) : m.status? p ≠ some .live := by
  intro hp
  obtain ⟨q, hq, ho⟩ := inletIs_iff.1 (inletIs_isOpen_iff.2 hp)
  exact absurd ho (List.countP_eq_zero.1 h q (List.mem_of_getElem? hq))

theorem isSome_status? {m : Merge L u} {p : InletId} : (m.status? p).isSome = true ↔ p < m.inlets.length := by
  unfold status?
  rw [Option.isSome_map, isSome_getElem?]

theorem Fresh.status? {m : Merge L u} {sources : List u.State} (h : Fresh m sources) {p : InletId}
    (hp : p < m.inlets.length) : m.status? p = some .live := by
  have hq := List.getElem?_eq_getElem hp
  generalize m.inlets[p] = q at hq
  have hnew := hq
  rw [h.inlets, List.getElem?_map] at hnew
  obtain ⟨s, -, rfl⟩ := Option.map_eq_some_iff.1 hnew
  unfold Merge.status?
  rw [hq]
  rfl

/-! ## The inlets after an event -/

theorem inlet_close (m : Merge L u) (closing : Option Closing) (k : InletId) :
    (m.close closing).inlets[k]? = m.inlets[k]? ∨
    (m.close closing).inlets[k]? = m.inlets[k]?.map (·.release.2) := by
  unfold close
  split
  · exact Or.inl rfl
  · exact Or.inl rfl
  · exact Or.inr ((finish_spec m _).inlet k)

/-- Handling an event at most releases inlets. -/
theorem inlet_dispatch (m : Merge L u) (choice : Choice) (p : InletId) (a : Arrival α) (k : InletId) :
    (m.dispatch choice p a).inlets[k]? = m.inlets[k]? ∨
    (m.dispatch choice p a).inlets[k]? = m.inlets[k]?.map (·.release.2) := by
  have hi := (accept_spec m choice p a).inlets
  rw [dispatch_eq, apply_eq]
  split
  · refine Or.inr (((finish_spec _ _).inlet k).trans ?_)
    show (m.accept choice p a).inlets[k]?.map _ = _
    rw [hi]
  · have hs := (settled_spec (m.accept choice p a) (.ofActions (m.transition p a).actions)
      (m.transition p a).next).inlet k
    have hc := inlet_close ((m.accept choice p a).settled (.ofActions (m.transition p a).actions)
      (m.transition p a).next) (Effects.ofActions (m.transition p a).actions).closing k
    rw [hs, hi] at hc
    split at hc
    · refine Or.inr (hc.elim id fun hc => hc.trans ?_)
      cases m.inlets[k]? <;> simp
    · exact hc

/-! ## The number of inlets -/

theorem count_finish (m : Merge L u) (v : Verdict) : (m.finish v).inlets.length = m.inlets.length := by
  rw [finish_eq]
  exact (congrArg List.length (inlets_announce _ _ v)).trans (frame_releaseAll m).count

theorem count_dispatch (m : Merge L u) (choice : Choice) (p : InletId) (a : Arrival α) :
    (m.dispatch choice p a).inlets.length = m.inlets.length := by
  have ha := congrArg List.length (accept_spec m choice p a).inlets
  rw [dispatch_eq, apply_eq]
  split
  · exact (count_finish _ _).trans ha
  · have hs := (settled_spec (m.accept choice p a) (.ofActions (m.transition p a).actions)
      (m.transition p a).next).count
    unfold close
    split
    · exact hs.trans ha
    · exact hs.trans ha
    · exact (count_finish _ _).trans (hs.trans ha)

theorem Step.count {m m' : Merge L u} (h : Step m m') : m'.inlets.length = m.inlets.length := by
  cases h with
  | delivers closing y _ _ _ hr => exact congrArg List.length (delivered_spec closing y hr).inlets
  | tries m' _ _ h =>
    cases h with
    | waits choice order => exact (frame_seek m order).count
    | accepts choice order p a q =>
      rw [count_dispatch]
      exact ((frame_seek m order).trans (frame_putInlet _ p q.take.2)).count
  | ends m₁ v h => rw [count_finish, h.inlets]
  | _ => rfl

/-- Inlets neither come nor go. -/
theorem Change.count {m m' : Merge L u} (h : Change m m') : m'.inlets.length = m.inlets.length := by
  cases h with
  | step => exact (step_spec m).count
  | rouse => rfl
  | relink => rfl
  | adjust => exact List.length_set
  | abandon => exact (frame_releaseAll m).count

theorem Fresh.count {m : Merge L u} {sources : List u.State} (h : Fresh m sources) :
    m.inlets.length = sources.length := by
  rw [h.inlets, List.length_map]

theorem play_count {settings : Settings} {sources : List u.State} {m : Merge L u}
    (hm : setUp L u settings sources = .ok m) (moves : List (Move u)) :
    ((Session.start m).play moves).merge.inlets.length = sources.length :=
  (Session.play_changes moves (Session.start m)).induction
    (motive := fun m' => m'.inlets.length = sources.length) (fun _ _ h hlen => h.count.trans hlen)
    (setUp_fresh hm).count

theorem closing_of_isFinal {m : Merge L u} (h : m.stage.isFinal = true) : m.stage.closing = false := by
  cases hst : m.stage <;> first | rfl | (rw [hst] at h; cases h)

theorem status?_released {m m' : Merge L u} (h : ∀ k : InletId, m'.inlets[k]? = m.inlets[k]?.map (·.release.2))
    (p : InletId) : m'.status? p = (m.status? p).map .release := by
  unfold status?
  rw [h, Option.map_map, Option.map_map]
  exact congrArg (Option.map · m.inlets[p]?) (funext fun q => q.status_release_eq)

/-- A strategy starts in the state and under the policy that it gives for its memory after the set-up. -/
theorem setUp_start {settings : Settings} {sources : List u.State} {m : Merge L u}
    (h : setUp L u settings sources = .ok m) :
    m.memory = (declare L sources.length).2 ∧ m.state = L.start m.memory ∧ m.policy = L.policy m.memory := by
  unfold setUp at h
  split at h
  · cases h
  · rename_i handles memory hd
    cases h
    rw [hd]
    exact ⟨rfl, rfl, rfl⟩

theorem Supplied.rest {w : u.Forecast} {forecasts : List (List α)} {m : Merge L u} (h : m.Supplied w forecasts)
    (hb : m.Balanced) {p : InletId} {xs : List α} (hxs : forecasts[p]? = some xs)
    (hp : (m.status? p).isSome = true) :
    ∃ rest, xs = m.handed p ++ rest ∧
      ∀ t, m.status? p = some t → t ≠ .live → t ≠ .cancelled → rest = [] := by
  obtain ⟨t, ht⟩ := Option.isSome_iff_exists.1 hp
  obtain ⟨q, hq, rfl⟩ := Option.map_eq_some_iff.1 ht
  have hs := h p q xs hq hxs
  have hbal := hb p q hq
  by_cases hended : q.isOpen = false ∧ q.status ≠ .cancelled
  · refine ⟨[], ?_, fun _ _ _ _ => rfl⟩
    have hkept : q.kept = none := Inlet.kept_of_empty (hbal.sound.closed hended.1).1
    have hsettled : m.yielded p = m.handed p ++ q.kept.toList := hbal.settled hended.2
    rw [hkept, Option.toList_none] at hsettled
    rw [← hsettled]
    exact (hs.closed hended.1 hended.2).symm
  · obtain ⟨rest, hrest⟩ := hbal.handed_initial.trans hs.yielded
    refine ⟨rest, hrest.symm, fun t ht' hl hc => absurd ⟨?_, ?_⟩ hended⟩
    · refine eq_false_of_ne_true fun ho => hl ?_
      rw [← Option.some.inj (ht.symm.trans ht')]
      exact Inlet.isOpen_iff.1 ho
    · rw [Option.some.inj (ht.symm.trans ht')]
      exact hc

/-! ## Keeping and handling -/

/-- A change keeps all that a strategy knows of. -/
structure Keeps (m m' : Merge L u) : Prop where
  memory : m'.memory = m.memory
  state : m'.state = m.state
  policy : m'.policy = m.policy
  handed : ∀ p, m'.handed p = m.handed p
  emissions : m'.emissions = m.emissions
  status : ∀ p, m'.Retains p (m.status? p)
  running : m'.stage.isFinal = false → m.stage.isFinal = false
  closing : m'.stage.isFinal = false → m'.stage.closing = m.stage.closing
  verdict : ∀ v, m'.verdict? = some v → m.verdict? = some v ∨ ∃ m₁, Ends m m₁ v

/-- What the transition `t` for the event `a` of `p` makes of a merge, if it emits once at most. -/
structure Obeys (m : Merge L u) (p : InletId) (a : Arrival α) (t : Transition β L.Key L.State L.Memory)
    (m' : Merge L u) : Prop where
  memory : m'.memory = t.memory
  state : m'.state = t.next
  policy : m'.policy = (Effects.ofActions t.actions).policy.getD m.policy
  stage : m'.stage = match (Effects.ofActions t.actions).closing with
    | none => .settling false
    | some .complete => .settling true
    | some (.fail e) => .ended (.error e)
  status : (Effects.ofActions t.actions).releases = [] →
    ∀ k, m'.Retains k (if k = p then some a.status else m.status? k)

/-- A change handles the event `a` of the inlet `p`. -/
structure Handles (m : Merge L u) (p : InletId) (a : Arrival α) (m' : Merge L u) : Prop where
  isOpen : m.inletIs p (·.isOpen) = true
  /-- An element comes from an inlet that the present state chooses. -/
  chosen : a.isTerminal = false → p ∈ (L.choice m.memory m.state).inlets
  running : m.stage.isFinal = false
  closing : m.stage.closing = false
  handed : ∀ k, m'.handed k = m.handed k ++ if k = p then a.element?.toList else []
  emissions : m'.emissions = m.emissions ++ (m.transition p a).emission?.toList
  obeys : (Effects.ofActions (m.transition p a).actions).emittedTwice = false → Obeys m p a (m.transition p a) m'

/-- An end or a failure hands nothing over. -/
theorem Handles.handed_of_terminal {m m' : Merge L u} {p : InletId} {a : Arrival α} (h : Handles m p a m')
    (ht : a.isTerminal = true) (k : InletId) : m'.handed k = m.handed k := by
  rw [h.handed k]
  cases a with
  | element x => cases ht
  | completed => simp [Arrival.element?]
  | failed c => simp [Arrival.element?]

/-- What has come to its end stays there when another inlet brings something. -/
theorem Handles.completed_mono {m m' : Merge L u} {p : InletId} {a : Arrival α} (h : Handles m p a m')
    (hstatus : ∀ k, m'.Retains k (if k = p then some a.status else m.status? k)) (k : InletId)
    (hk : m.status? k = some .completed) : m'.status? k = some .completed := by
  refine (hstatus k).completed_iff.2 ?_
  split
  · rename_i hkp
    rw [hkp, inletIs_isOpen_iff.1 h.isOpen] at hk
    cases hk
  · exact hk

theorem closed_close (m : Merge L u) (closing : Option Closing) :
    (m.close closing).stage = (match closing with
      | none => .settling false
      | some .complete => .settling true
      | some (.fail e) => .ended (.error e)) ∧
    ∀ k, (m.close closing).Retains k (m.status? k) := by
  cases closing with
  | none => exact ⟨rfl, fun k => Or.inl rfl⟩
  | some closing =>
    cases closing with
    | complete => exact ⟨rfl, fun k => Or.inl rfl⟩
    | fail e =>
      have hf := finish_spec m (.error e)
      refine ⟨hf.stage, fun k => Or.inr ⟨?_, status?_released hf.inlet k⟩⟩
      show (m.finish (.error e)).stage.isFinal = true
      rw [hf.stage]
      rfl

theorem obeys_dispatch {m : Merge L u} (choice : Choice) {p : InletId} {a : Arrival α}
    (hp : m.status? p = some a.status)
    (hone : (Effects.ofActions (m.transition p a).actions).emittedTwice = false) :
    Obeys m p a (m.transition p a) (m.dispatch choice p a) := by
  have h := accept_spec m choice p a
  have hs := settled_spec (m.accept choice p a) (.ofActions (m.transition p a).actions) (m.transition p a).next
  rw [dispatch_eq, apply_eq, if_neg (by rw [hone]; exact Bool.false_ne_true)]
  generalize (m.accept choice p a).settled (.ofActions (m.transition p a).actions) (m.transition p a).next = m₁ at hs
  obtain ⟨hstage, hstatus⟩ := closed_close m₁ (Effects.ofActions (m.transition p a).actions).closing
  have hcore := core_close m₁ (Effects.ofActions (m.transition p a).actions).closing
  refine ⟨(congrArg Core.memory hcore).trans (hs.memory.trans h.memory),
    (congrArg Core.state hcore).trans hs.state,
    (congrArg Core.policy hcore).trans (hs.policy.trans (by rw [h.policy])), hstage, fun hr k => ?_⟩
  have hk : m₁.status? k = if k = p then some a.status else m.status? k := by
    unfold status?
    rw [hs.inlet, hr, if_neg (by simp), h.inlets]
    split
    · rename_i hkp
      rw [hkp]
      exact hp
    · rfl
  exact hk ▸ hstatus k

theorem status?_set {m m' : Merge L u} {p : InletId} {q q' : Inlet u} (hq : m.inlets[p]? = some q)
    (h : m'.inlets = m.inlets.set p q') (k : InletId) :
    m'.status? k = if k = p then some q'.status else m.status? k := by
  unfold status?
  rw [h, List.getElem?_set]
  by_cases hk : k = p
  · subst hk
    rw [if_pos rfl, if_pos rfl, if_pos (List.getElem?_eq_some_iff.1 hq).1]
    rfl
  · rw [if_neg hk, if_neg (Ne.symm hk)]

theorem status?_seek (m : Merge L u) (order : List InletId) (k : InletId) :
    (m.seek order).2.status? k = m.status? k := by
  refine seek_induction (motive := fun m' => m'.status? k = m.status? k) (fun m' p h => ?_) m order rfl
  rcases fill_cases m' p with hf | ⟨q, s, hf⟩
  · rw [hf, h]
  · rw [status?_set hf.here hf.inlets, ← h]
    split
    · rename_i hk
      rw [Inlet.status_store, hk]
      exact (congrArg (Option.map Inlet.status) hf.here).symm
    · rfl

/-- With its event, an inlet takes on a new status. -/
theorem status?_taken {m : Merge L u} (hb : m.Balanced) {order : List InletId} {p : InletId} {q : Inlet u}
    {a : Arrival α} (hq : (m.seek order).2.inlets[p]? = some q) (ha : q.buffer = some a) (k : InletId) :
    ((m.seek order).2.putInlet p q.take.2).status? k = if k = p then some a.status else m.status? k := by
  have hsound : q.Sound := (hb.acts (works_seek m order).acts p q hq).sound
  rw [status?_set hq (inlets_putInlet _ p q.take.2), Inlet.status_take hsound ha, status?_seek]

/-- An attempt finds the event `a` of the inlet `p`, which is taken and handled. -/
inductive Accepts (m : Merge L u) (p : InletId) (a : Arrival α) : Merge L u → Prop
  | found (choice : Choice) (order : List InletId) (q : Inlet u) : m.stage = .attempting choice order →
      (m.seek order).1 = some p → (m.seek order).2.inlets[p]? = some q → q.buffer = some a →
      Accepts m p a (((m.seek order).2.putInlet p q.take.2).dispatch choice p a)

/-- To accept an event is to handle it. -/
theorem Accepts.handles {m m' : Merge L u} {p : InletId} {a : Arrival α} (h : Accepts m p a m') (hb : m.Balanced)
    (hc : m.Coherent) : Handles m p a m' := by
  obtain ⟨choice, order, q, hst, hp, hq, ha⟩ := h
  obtain ⟨reads, outcome, hs⟩ := serves_of_found hb hst hp hq ha
  have hf := (frame_seek m order).trans (frame_putInlet _ p q.take.2)
  have hstatus := status?_taken hb hq ha
  refine ⟨hs.isOpen, fun ht => ?_, by rw [hst]; rfl, by rw [hst]; rfl, fun k => ?_, emissions_of_serves hs,
    fun hone => ?_⟩
  · have hfit := hc.fits
    rw [hst] at hfit
    obtain ⟨-, -, rfl, rfl, -⟩ := hfit
    exact (Choice.mem_readingOrder.1 (mem_of_seek hp hq ha ht)).1
  · have hreads : reads.filterMap (Entry.handed? k) = [] := by
      refine List.filterMap_eq_nil_iff.2 fun e he => ?_
      rcases hs.isRead e he with he | rfl
      · cases e <;> first | rfl | cases he
      · rfl
    have hout : outcome.filterMap (Entry.handed? k) = [] := by
      refine List.filterMap_eq_nil_iff.2 fun e he => ?_
      have := hs.isOutcome e he
      cases e <;> first | rfl | cases this
    rw [handed, hs.history, List.filterMap_append, List.filterMap_append, hreads, List.append_nil,
      List.filterMap_cons_none rfl, List.filterMap_append, hout, List.append_nil, handed?_handling m k p ha,
      Inlet.kept_eq_element? ha]
    by_cases hk : k = p
    · rw [if_pos hk, if_pos hk.symm]
      rfl
    · rw [if_neg hk, if_neg (Ne.symm hk)]
      rfl
  · rw [← hf.transition p a] at hone ⊢
    have h := obeys_dispatch choice ((hstatus p).trans (if_pos rfl)) hone
    refine ⟨h.memory, h.state, by rw [h.policy, hf.policy], h.stage, fun hr k => ?_⟩
    have hk := h.status hr k
    rw [hstatus] at hk
    split at hk
    · rename_i hkp
      rw [if_pos hkp]
      exact hk
    · rename_i hkp
      rw [if_neg hkp]
      exact hk

/-- An entry about neither an emission nor an element that is handed over. -/
def isSilent (e : Entry L) : Prop := e.emitted? = none ∧ ∀ p, e.handed? p = none

theorem isSilent_of_isSideline {e : Entry L} (h : e.isSideline) : isSilent e :=
  ⟨emitted?_of_isSideline h, fun p => by cases e <;> first | rfl | cases h⟩

theorem isSilent_of_isReading {e : Entry L} (h : isReading e) : isSilent e :=
  ⟨emitted?_of_isReading h, fun p => by cases e <;> first | rfl | cases h⟩

theorem Extends.silent {m m' : Merge L u} (h : Extends isSilent m m') :
    (∀ p, m'.handed p = m.handed p) ∧ m'.emissions = m.emissions :=
  ⟨fun p => h.filterMap_eq fun _ he => he.2 p, h.filterMap_eq fun _ he => he.1⟩

/-- A run that goes on after a change that writes nothing of interest keeps all. -/
theorem Keeps.of_running {m m' : Merge L u} (hm : m'.memory = m.memory) (hs : m'.state = m.state)
    (hp : m'.policy = m.policy) (hx : Extends isSilent m m') (hi : ∀ p, m'.status? p = m.status? p)
    (hr : m.stage.isFinal = false) (hr' : m'.stage.isFinal = false) (hc : m'.stage.closing = m.stage.closing) :
    Keeps m m' :=
  ⟨hm, hs, hp, hx.silent.1, hx.silent.2, fun p => Or.inl (hi p), fun _ => hr, fun _ => hc,
    fun v hv => by rw [verdict?_of_isFinal hr'] at hv; cases hv⟩

/-- The stage stays as it is. -/
theorem Keeps.of_stage {m m' : Merge L u} (hm : m'.memory = m.memory) (hs : m'.state = m.state)
    (hp : m'.policy = m.policy) (hx : Extends isSilent m m') (hi : ∀ p, m'.status? p = m.status? p)
    (hst : m'.stage = m.stage) : Keeps m m' :=
  ⟨hm, hs, hp, hx.silent.1, hx.silent.2, fun p => Or.inl (hi p), fun hr => hst ▸ hr, fun _ => by rw [hst],
    fun v hv => Or.inl (by unfold verdict? at hv ⊢; rw [hst] at hv; exact hv)⟩

theorem Aims.closing {m : Merge L u} {aim : Aim} (h : m.Aims aim) :
    m.stage.closing = (Stage.draining aim).closing := by
  rcases h.stage with h | h <;> rw [h]
  cases aim <;> rfl

theorem Turns.closing {m : Merge L u} {stage : Stage} (h : Turns m stage) : stage.closing = m.stage.closing := by
  cases h with
  | deliver closing hst => rw [hst]; rfl
  | read hst => rw [hst]; rfl
  | await aim hst => rw [hst]; cases aim <;> rfl
  | choose order haim => rw [haim.closing]; rfl
  | settle closing haim => rw [haim.closing]; rfl

theorem Ends.core {m m₁ : Merge L u} {v : Verdict} (h : Ends m m₁ v) :
    m₁.memory = m.memory ∧ m₁.state = m.state ∧ m₁.policy = m.policy := by
  cases h <;> exact ⟨rfl, rfl, rfl⟩

theorem Ends.keeps {m m₁ : Merge L u} {v : Verdict} (h : Ends m m₁ v) : Keeps m (m₁.finish v) := by
  have hf := finish_spec m₁ v
  obtain ⟨hm, hs, hp⟩ := h.core
  have hx : Extends isSilent m (m₁.finish v) :=
    (h.sideline.trans (hf.history.mono fun _ => Entry.isSideline_of_isClosing)).mono
      fun _ => isSilent_of_isSideline
  have hfinal : (m₁.finish v).stage.isFinal = true := by rw [hf.stage]; rfl
  refine ⟨(congrArg Core.memory hf.core).trans hm, (congrArg Core.state hf.core).trans hs,
    (congrArg Core.policy hf.core).trans hp, hx.silent.1, hx.silent.2, fun p => Or.inr ⟨hfinal, ?_⟩,
    fun hr => ?_, fun hr => ?_, fun v' hv => Or.inr ⟨m₁, ?_⟩⟩
  · exact status?_released (m := m) (fun k => by rw [hf.inlet, h.inlets]) p
  · rw [hfinal] at hr
    cases hr
  · rw [hfinal] at hr
    cases hr
  · unfold verdict? at hv
    rw [hf.stage] at hv
    exact Option.some.inj hv ▸ h

theorem Step.keeps_or_accepts {m m' : Merge L u} (h : Step m m') : Keeps m m' ∨ ∃ p a, Accepts m p a m' := by
  cases h with
  | opens hst =>
    exact Or.inl (.of_running rfl rfl rfl
      ((extends_opening Entry.isSideline m trivial trivial).mono fun _ => isSilent_of_isSideline) (fun _ => rfl)
      (by rw [hst]; rfl) rfl (by rw [hst]; rfl))
  | turns stage ht =>
    exact Or.inl (.of_running rfl rfl rfl (.of_eq rfl) (fun _ => rfl) ht.isFinal ht.isFinal_next ht.closing)
  | starves => exact Or.inl (.of_stage rfl rfl rfl (.of_eq rfl) (fun _ => rfl) rfl)
  | hears n rest =>
    exact Or.inl (.of_stage rfl rfl rfl
      ((extends_note _ (e := .took (.request n)) trivial).mono fun _ => isSilent_of_isSideline) (fun _ => rfl) rfl)
  | delivers closing y haim _ _ hr =>
    have hd := delivered_spec closing y hr
    refine Or.inl (.of_running (congrArg Core.memory hd.core) (congrArg Core.state hd.core)
      (congrArg Core.policy hd.core) (hd.extends_of _ ⟨rfl, fun _ => rfl⟩) (fun p => ?_) haim.isFinal rfl ?_)
    · exact congrArg (Option.map (·.status)) (congrArg (·[p]?) hd.inlets)
    · rw [haim.closing]
      rfl
  | tries m' _ _ ht =>
    cases ht with
    | waits choice order hst =>
      have hf := frame_seek m order
      exact Or.inl (.of_stage hf.memory hf.state hf.policy
        ((extends_seek m order).mono fun _ => isSilent_of_isReading) (status?_seek m order) hf.stage)
    | accepts choice order p a q hst hp hq ha => exact Or.inr ⟨p, a, .found choice order q hst hp hq ha⟩
  | ends m₁ v h => exact Or.inl h.keeps
  | rests => exact Or.inl (.of_stage rfl rfl rfl (.refl m) (fun _ => rfl) rfl)

/-- **A change keeps everything that a strategy knows of, or accepts one event.** -/
theorem Change.keeps_or_accepts {m m' : Merge L u} (h : Change m m') :
    Keeps m m' ∨ ∃ p a, Accepts m p a m' := by
  cases h with
  | step => exact (step_spec m).keeps_or_accepts
  | rouse => exact Or.inl (.of_stage rfl rfl rfl (.of_eq rfl) (fun _ => rfl) rfl)
  | relink => exact Or.inl (.of_stage rfl rfl rfl (.of_eq rfl) (fun _ => rfl) rfl)
  | adjust p q s s' hq =>
    refine Or.inl (.of_stage rfl rfl rfl (.of_eq rfl) (fun k => ?_) rfl)
    rw [status?_set hq rfl]
    split
    · rename_i hk
      subst hk
      exact (congrArg (Option.map Inlet.status) hq).symm
    · rfl
  | abandon hr =>
    have hf := frame_releaseAll m
    have hx : Extends isSilent m m.releaseAll :=
      (extends_releaseAll m).mono fun e ⟨p, he⟩ => he ▸ ⟨rfl, fun _ => rfl⟩
    exact Or.inl ⟨hf.memory, hf.state, hf.policy, hx.silent.1, hx.silent.2,
      fun p => Or.inr ⟨rfl, status?_released (getElem?_releaseAll m) p⟩, fun h => (by cases h),
      fun h => (by cases h), fun v hv => (by cases hv)⟩

theorem Change.keeps_or_handles {m m' : Merge L u} (h : Change m m') (hb : m.Balanced) (hc : m.Coherent) :
    Keeps m m' ∨ ∃ p a, Handles m p a m' :=
  h.keeps_or_accepts.imp_right fun ⟨p, a, ha⟩ => ⟨p, a, ha.handles hb hc⟩

/-! ## What was sent -/

/-- The elements that were delivered. -/
def sent (m : Merge L u) : List β := m.deliveries.filterMap Delivery.element?

/-- What was emitted was sent, but for what is unsent; only a run that was cancelled may have dropped that. -/
def Forthright (m : Merge L u) : Prop :=
  m.emissions = m.sent ++ m.unsent.toList ∨ m.verdict? = some (.ok .cancelled) ∧ m.sent <+: m.emissions

theorem Forthright.sent_initial {m : Merge L u} (h : m.Forthright) : m.sent <+: m.emissions := by
  rcases h with h | ⟨-, h⟩
  · exact ⟨_, h.symm⟩
  · exact h

theorem Forthright.running {m : Merge L u} (h : m.Forthright) (hr : m.stage.isFinal = false) :
    m.emissions = m.sent ++ m.unsent.toList := by
  rcases h with h | ⟨hv, -⟩
  · exact h
  · rw [verdict?_of_isFinal hr] at hv
    cases hv

theorem stage_of_verdict? {m : Merge L u} {v : Verdict} (h : m.verdict? = some v) : m.stage = .ended v := by
  unfold verdict? at h
  split at h
  · rename_i v' hst
    rw [hst, Option.some.inj h]
  · cases h

/-- A run that was completed has sent everything. -/
theorem Forthright.completed {m : Merge L u} (h : m.Forthright) (hc : m.Coherent)
    (hv : m.verdict? = some (.ok .completed)) : m.sent = m.emissions := by
  have hu := hc.fits
  rw [stage_of_verdict? hv] at hu
  rcases h with h | ⟨hv', -⟩
  · rw [h, show m.unsent = none from hu rfl]
    exact (List.append_nil _).symm
  · rw [hv] at hv'
    cases hv'

/-- Nothing is emitted or sent. -/
theorem Forthright.of_eq {m m' : Merge L u} (h : m.Forthright) (he : m'.emissions = m.emissions)
    (hs : m'.sent = m.sent) (hu : m'.unsent = m.unsent)
    (hv : m.verdict? = some (.ok .cancelled) → m'.verdict? = some (.ok .cancelled)) : m'.Forthright := by
  unfold Forthright
  rw [he, hs, hu]
  exact h.imp_right fun ⟨hv', hp⟩ => ⟨hv hv', hp⟩

theorem sent_of_sends {m m' : Merge L u} {ds : List (Delivery β)} (h : Sends m m' ds) :
    m'.sent = m.sent ++ ds.filterMap Delivery.element? := by
  unfold sent
  rw [h.deliveries, List.filterMap_append]

theorem Delivered.sent {m m' : Merge L u} {y : β} (h : Delivered m y m') : m'.sent = m.sent ++ [y] := by
  rw [Merge.sent, h.deliveries, List.filterMap_append]
  rfl

theorem sent_finish (m : Merge L u) (v : Verdict) : (m.finish v).sent = m.sent := by
  rw [sent_of_sends (sends_finish m v)]
  split
  · rw [element?_farewell, List.append_nil]
  · exact List.append_nil _

/-- An attempt sends no element. -/
theorem Tries.sent {m m' : Merge L u} (h : Tries m m') : m'.sent = m.sent := by
  cases h with
  | waits choice order =>
    exact congrArg (List.filterMap _)
      ((extends_seek m order).filterMap_eq fun _ => delivered?_of_isReading)
  | accepts choice order p a q =>
    have hx := ((extends_seek m order).mono fun _ => delivered?_of_isReading).trans
      ((extends_putInlet (m.seek order).2 p q.take.2).mono fun e he => by rw [he]; rfl)
    have hm₁ : ((m.seek order).2.putInlet p q.take.2).sent = m.sent :=
      congrArg (List.filterMap _) (hx.filterMap_eq fun _ he => he)
    obtain ⟨m₂, closing, heq, hs, -⟩ := dispatch_close ((m.seek order).2.putInlet p q.take.2) choice p a
    rw [heq, sent_of_sends (hs.trans (sends_close m₂ closing)), hm₁]
    simp only [List.nil_append]
    split
    · rw [element?_parting, List.append_nil]
    · exact List.append_nil _

theorem Step.forthright {m m' : Merge L u} (h : Step m m') (hm : m.Forthright) (hb : m.Balanced)
    (hc : m.Coherent) : m'.Forthright := by
  have hquiet : m.stage.isFinal = false → m.verdict? = some (.ok .cancelled) → m'.verdict? = some (.ok .cancelled) :=
    fun hr hv => by rw [verdict?_of_isFinal hr] at hv; cases hv
  cases h with
  | opens hst =>
    exact hm.of_eq (emissions_of_extends (extends_opening (fun e => e.emitted? = none) m rfl rfl))
      (congrArg (List.filterMap _)
        ((extends_opening (fun e => e.delivered? = none) m rfl rfl).filterMap_eq fun _ he => he)) rfl
      (hquiet (by rw [hst]; rfl))
  | turns stage ht => exact hm.of_eq rfl rfl rfl (hquiet ht.isFinal)
  | starves => exact hm.of_eq rfl rfl rfl id
  | hears n rest hr =>
    have hx : Extends (fun e : Entry L => e.delivered? = none ∧ e.emitted? = none) m
        ({ m with credit := m.credit.grant n, link := { m.link with signals := rest } }.note
          (.took (.request n))) :=
      extends_note { m with credit := m.credit.grant n, link := { m.link with signals := rest } } ⟨rfl, rfl⟩
    exact hm.of_eq (emissions_of_extends (hx.mono fun _ he => he.2))
      (congrArg (List.filterMap _) (hx.filterMap_eq fun _ he => he.1)) rfl (hquiet hr)
  | delivers closing y haim _ hu hrec =>
    have hd := delivered_spec closing y hrec
    refine Or.inl ?_
    rw [emissions_of_extends (hd.extends_of (fun e => e.emitted? = none) rfl), hm.running haim.isFinal, hu, hd.unsent,
      hd.sent]
    simp
  | tries m' _ _ ht =>
    cases ht with
    | waits choice order hst hn =>
      have hf := frame_seek m order
      exact hm.of_eq (emissions_of_extends ((extends_seek m order).mono fun _ => emitted?_of_isReading))
        (Tries.waits choice order hst hn).sent hf.unsent (hquiet (by rw [hst]; rfl))
    | accepts choice order p a q hst hp hq ha =>
      obtain ⟨reads, outcome, hs⟩ := serves_of_found hb hst hp hq ha
      refine Or.inl ?_
      rw [emissions_of_serves hs, (Tries.accepts choice order p a q hst hp hq ha).sent,
        hm.running (by rw [hst]; rfl), hs.unsent, hc.unsent_of_attempting hst]
      simp
  | ends m₁ v h =>
    have hf := finish_spec m₁ v
    have hx : Extends Entry.isSideline m (m₁.finish v) :=
      h.sideline.trans (hf.history.mono fun _ => Entry.isSideline_of_isClosing)
    have hem := emissions_of_extends (hx.mono fun _ => emitted?_of_isSideline)
    have hsent : (m₁.finish v).sent = m.sent := by
      rw [sent_finish, sent_of_sends h.sends]
      exact List.append_nil _
    have hunsent : (m₁.finish v).unsent = m₁.unsent := unsent_of_core hf.core
    have hkeep : m₁.unsent = m.unsent → (m₁.finish v).Forthright := fun hu =>
      hm.of_eq hem hsent (hunsent.trans hu) (hquiet h.isFinal)
    cases h with
    | undeliverable closing y haim =>
      refine Or.inr ⟨?_, ?_⟩
      · unfold verdict?
        rw [hf.stage]
      · rw [hsent, hem]
        exact hm.sent_initial
    | _ => exact hkeep rfl
  | rests => exact hm

theorem Change.forthright {m m' : Merge L u} (h : Change m m') (hm : m.Forthright) (hb : m.Balanced)
    (hc : m.Coherent) : m'.Forthright := by
  cases h with
  | step => exact (step_spec m).forthright hm hb hc
  | rouse => exact hm
  | relink => exact hm
  | adjust => exact hm
  | abandon hr =>
    have hx := extends_releaseAll m
    refine hm.of_eq (hx.filterMap_eq fun e ⟨p, he⟩ => he ▸ rfl)
      (congrArg (List.filterMap _) (hx.filterMap_eq fun e ⟨p, he⟩ => he ▸ rfl)) (frame_releaseAll m).unsent fun hv => ?_
    rw [verdict?_of_isFinal hr] at hv
    cases hv

theorem Fresh.forthright {m : Merge L u} {sources : List u.State} (h : Fresh m sources) : m.Forthright := by
  refine Or.inl ?_
  unfold emissions sent deliveries
  rw [h.history, h.unsent]
  rfl

theorem play_forthright {settings : Settings} {sources : List u.State} {m : Merge L u}
    (hm : setUp L u settings sources = .ok m) (moves : List (Move u)) :
    ((Session.start m).play moves).merge.Forthright :=
  play_invariant hm (setUp_fresh hm).forthright (fun h hb hc hf => h.forthright hf hb hc) moves

end Merge

namespace Session.Staged

variable {w : u.Forecast} {forecasts : List (List α)} {s : Session L u}

theorem count (h : s.Staged w forecasts) : s.merge.inlets.length = forecasts.length :=
  h.induction (fun hm hlen => (Merge.setUp_fresh hm).count.trans hlen)
    fun hch _ _ hlen => hch.count.trans hlen

theorem isSome_status? (h : s.Staged w forecasts) {p : InletId} (hp : p < forecasts.length) :
    (s.merge.status? p).isSome = true :=
  Merge.isSome_status?.2 (h.count ▸ hp)

/-- What the strategy was handed of a source is where its forecast begins, and all of it once the inlet has come to
its end or has failed. -/
theorem rest (h : s.Staged w forecasts) {p : InletId} {xs : List α} (hxs : forecasts[p]? = some xs) :
    ∃ rest, xs = s.merge.handed p ++ rest ∧
      ∀ t, s.merge.status? p = some t → t ≠ .live → t ≠ .cancelled → rest = [] :=
  h.supplied.rest h.balanced hxs (h.isSome_status? (List.getElem?_eq_some_iff.1 hxs).1)

/-- A source is at most one element ahead of the strategy. -/
theorem yielded_le (h : s.Staged w forecasts) {p : InletId} (hp : p < forecasts.length) :
    (s.merge.yielded p).length ≤ (s.merge.handed p).length + 1 :=
  (h.balanced p _ (List.getElem?_eq_getElem (h.count ▸ hp))).yielded_le

theorem forthright (h : s.Staged w forecasts) : s.merge.Forthright := by
  obtain ⟨hm, -, -⟩ := h
  exact Merge.play_forthright hm _

/-- What holds of a merge as it is set up and is kept when a change keeps what the strategy knows of, and when an event
is handled, holds after every play. -/
theorem course {motive : Merge L u → Prop} (h : s.Staged w forecasts)
    (start : ∀ {settings : Settings} {sources : List u.State} {m : Merge L u},
      Merge.setUp L u settings sources = .ok m → m.inlets.length = forecasts.length → motive m)
    (keeps : ∀ {m m' : Merge L u}, Merge.Keeps m m' → m.inlets.length = forecasts.length → motive m → motive m')
    (handles : ∀ {m m' : Merge L u} {p : InletId} {a : Arrival α}, Merge.Handles m p a m' →
      m.inlets.length = forecasts.length → motive m → motive m') : motive s.merge :=
  (h.induction (motive := fun m => m.inlets.length = forecasts.length ∧ motive m)
    (fun hm hlen =>
      have hcount := (Merge.setUp_fresh hm).count.trans hlen
      ⟨hcount, start hm hcount⟩)
    fun hch hb hc ⟨hlen, hm⟩ => ⟨hch.count.trans hlen, by
      rcases hch.keeps_or_handles hb hc with h | ⟨p, a, h⟩
      · exact keeps h hlen hm
      · exact handles h hlen hm⟩).2

end Session.Staged
end StreamMerge
