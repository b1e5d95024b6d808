import StreamMerge.Proofs.Answers
import StreamMerge.Proofs.Sides
import StreamMerge.Proofs.Waiting
import StreamMerge.Strategy.Alternate
import StreamMerge.Strategy.Interleave

/-!
# The ready-made strategies break no rule

A run under `fair`, `preferred`, `alternate` or `zip` ends in an error only because a source has failed, and then with
this very failure and right after it (`Session.ReadyMade.upright`). Of a strategy two things are needed for that, as
long as its invariant holds: its present choice can be read, and it answers no event but a failure by an error
(`Upholds`).
-/
namespace StreamMerge

variable {α β : Type} {L : Strategy α β} {u : Source α}

namespace Entry

/-- A source answers with a failure. -/
def isFailure : Entry L → Prop
  | .polled _ (.failed _) => True
  | _ => False

theorem not_isFailure_of_isEarly {e : Entry L} (h : e.isEarly) : ¬ e.isFailure := by
  intro hf
  cases e with
  | polled p r =>
    cases r with
    | failed c => exact Bool.noConfusion (show true = false from h)
    | _ => exact hf
  | _ => cases hf

theorem not_isFailure_of_not_isPoll {e : Entry L} (h : ¬ e.isPoll) : ¬ e.isFailure :=
  not_isFailure_of_isEarly (isEarly_of_not_isPoll h)

end Entry

/-- The error in which a request to end the merge ends it. -/
def Closing.error? : Closing → Option MergeError
  | .complete => none
  | .fail e => some e

/-- The error in which an event may end a merge: its failure, if it is one. -/
def Arrival.error? : Arrival α → Option MergeError
  | .failed c => some (.sourceFailed c)
  | _ => none

namespace Merge

/-! ## Upright runs -/

/-- No source has failed and the run has ended in no error; or it has ended in the failure of a source, which was the
only one, and nothing was polled after it. -/
inductive Upright (m : Merge L u) : Prop
  | sound : (∀ e ∈ m.history, ¬ e.isFailure) → (∀ e, m.verdict? ≠ some (.error e)) → Upright m
  | failed (p : InletId) (c : Cause) (before after : List (Entry L)) :
      m.history = before ++ .polled p (.failed c) :: after → (∀ e ∈ before, ¬ e.isFailure) →
      (∀ e ∈ after, ¬ e.isPoll) → m.verdict? = some (.error (.sourceFailed c)) → Upright m

/-- If the run reads on, it can read the present choice. -/
def Readable (m : Merge L u) : Prop := m.Aims .read →
  (L.choice m.memory m.state).check m.inlets.length = none ∧
    (L.choice m.memory m.state).readingOrder m.turn (m.inletIs · (·.isOpen)) ≠ []

/-- The event `a` of `p` is answered by its failure, if it is one, and by no other error; no rule is broken. -/
structure Heeds (m : Merge L u) (p : InletId) (a : Arrival α) : Prop where
  once : (Effects.ofActions (m.transition p a).actions).emittedTwice = false
  closing : (Effects.ofActions (m.transition p a).actions).closing.bind Closing.error? = a.error?

section
variable {m m' : Merge L u}

theorem Heeds.of_transition {p : InletId} {a : Arrival α} {t : Transition β L.Key L.State L.Memory}
    (ht : m.transition p a = t) (honce : (Effects.ofActions t.actions).emittedTwice = false)
    (hclosing : (Effects.ofActions t.actions).closing.bind Closing.error? = a.error?) : m.Heeds p a := by
  subst ht
  exact ⟨honce, hclosing⟩

theorem Readable.no_error (h : m.Readable) {m₁ : Merge L u} {e : MergeError} : ¬ Ends m m₁ (.error e) := by
  intro hends
  cases hends with
  | refused violation haim _ hcheck =>
    rw [(h haim).1] at hcheck
    cases hcheck
  | stuck haim _ hstuck => exact (h haim).2 hstuck

/-- A run reads on only while some inlet is open. -/
theorem Regular.exists_open (h : m.Regular) (haim : m.Aims .read) : ∃ p, m.inletIs p (·.isOpen) = true := by
  refine openInlets_ne_zero.1 (h.busy ?_)
  rcases haim.stage with hst | hst
  · rw [hst]
    rfl
  · rw [hst]
    rfl

/-- It is enough that some inlet of the choice is open. -/
theorem readable_of_open (hcheck : (L.choice m.memory m.state).check m.inlets.length = none)
    (hopen : m.Aims .read → ∃ p ∈ (L.choice m.memory m.state).inlets, m.inletIs p (·.isOpen) = true) :
    m.Readable := by
  intro haim
  obtain ⟨p, hp, ho⟩ := hopen haim
  exact ⟨hcheck, List.ne_nil_of_mem (Choice.mem_readingOrder.2 ⟨hp, ho⟩)⟩

theorem Obeys.verdict? {p : InletId} {a : Arrival α} {t : Transition β L.Key L.State L.Memory} (h : Obeys m p a t m') :
    m'.verdict? = ((Effects.ofActions t.actions).closing.bind Closing.error?).map .error := by
  unfold Merge.verdict?
  rw [h.stage]
  cases (Effects.ofActions t.actions).closing with
  | none => rfl
  | some closing => cases closing <;> rfl

theorem Upright.of_eq (h : m.Upright) (hh : m'.history = m.history) (hv : m'.verdict? = m.verdict?) : m'.Upright := by
  cases h with
  | sound hs hn => exact .sound (hh ▸ hs) (hv ▸ hn)
  | failed p c before after heq hb ha hver => exact .failed p c before after (hh.trans heq) hb ha (hv.trans hver)

/-- As long as the run is not over, no source has failed. -/
theorem Upright.sound_of_running (h : m.Upright) (hr : m.stage.isFinal = false) : ∀ e ∈ m.history, ¬ e.isFailure := by
  cases h with
  | sound hs => exact hs
  | failed p c before after _ _ _ hv =>
    rw [verdict?_of_isFinal hr] at hv
    cases hv

theorem not_isFailure_of_extends (hs : ∀ e ∈ m.history, ¬ e.isFailure) (hx : Extends Entry.isEarly m m') :
    ∀ e ∈ m'.history, ¬ e.isFailure := by
  obtain ⟨es, hes, hok⟩ := hx
  intro e he
  rw [hes] at he
  rcases List.mem_append.1 he with he | he
  · exact hs e he
  · exact Entry.not_isFailure_of_isEarly (hok e he)

/-- A failure that is handled ends the run, and no other event does so in an error. -/
theorem Upright.answered {p : InletId} {a : Arrival α} (hs : ∀ e ∈ m.history, ¬ e.isFailure)
    (ha : Answered m p a m') (hv : m'.verdict? = a.error?.map .error) : m'.Upright := by
  have hnone : a.error? = none → ∀ e, m'.verdict? ≠ some (.error e) := by
    intro hn e he
    rw [hv, hn] at he
    cases he
  cases ha with
  | element ht hx =>
    obtain ⟨x, rfl⟩ := Arrival.isTerminal_eq_false.1 ht
    exact .sound (not_isFailure_of_extends hs hx) (hnone rfl)
  | last r choice reads after hr ht hh hearly hafter =>
    have hbefore : ∀ e ∈ m.history ++ reads, ¬ e.isFailure := by
      intro e he
      rcases List.mem_append.1 he with he | he
      · exact hs e he
      · exact Entry.not_isFailure_of_isEarly (hearly e he)
    have hpolls : ∀ e ∈ (.dropped p :: .arrived choice p a :: after : List (Entry L)), ¬ e.isPoll := by
      intro e he
      rcases List.mem_cons.1 he with rfl | he
      · exact id
      · rcases List.mem_cons.1 he with rfl | he
        · exact id
        · exact hafter e he
    cases r with
    | element x =>
      obtain rfl := Option.some.inj hr
      cases ht
    | pending again => cases hr
    | ended =>
      obtain rfl := Option.some.inj hr
      refine .sound (fun e he => ?_) (hnone rfl)
      rw [hh] at he
      rcases List.mem_append.1 he with he | he
      · exact hbefore e he
      · rcases List.mem_cons.1 he with rfl | he
        · exact id
        · exact Entry.not_isFailure_of_not_isPoll (hpolls e he)
    | failed c =>
      obtain rfl := Option.some.inj hr
      exact .failed p c _ _ hh hbefore hpolls hv

/-- **What keeps a run upright**: it can read its choices, and heeds what it handles. -/
theorem Upright.change (h : Change m m') (hm : m.Upright) (hreg : m.Regular) (ht : m.Tidy) (hread : m.Readable)
    (hheeds : ∀ p a, Handles m p a m' → m.Heeds p a) : m'.Upright := by
  cases hr : m.stage.isFinal with
  | true =>
    obtain ⟨hh, hst⟩ := h.rests hr
    exact hm.of_eq hh (by rw [Merge.verdict?, hst, Merge.verdict?])
  | false =>
    have hs := hm.sound_of_running hr
    rcases and_or_right.2 ⟨h.keeps_or_accepts, h.early_or_accepts ht⟩ with ⟨hk, hx⟩ | ⟨p, a, ha⟩
    · -- What accepts no event brings no failure, and ends the run in no error that the strategy is to blame for.
      refine .sound (not_isFailure_of_extends hs hx) fun e hv => ?_
      rcases hk.verdict _ hv with hv | ⟨m₁, hends⟩
      · rw [verdict?_of_isFinal hr] at hv
        cases hv
      · exact hread.no_error hends
    · have hh := ha.handles hreg.balanced hreg.coherent
      obtain ⟨honce, hclosing⟩ := hheeds p a hh
      exact .answered hs (ht.accepts hreg.balanced ha).2 ((hh.obeys honce).verdict?.trans (by rw [hclosing]))

end

/-! ## Invariants that keep runs upright -/

/-- `I` is an invariant of the strategy under which runs are upright, as long as the sources bring what they should:
`J` says that they have done so far. -/
structure Upholds (I J : Merge L u → Prop) : Prop where
  readable : ∀ {m}, m.Regular → I m → m.Readable
  keeps : ∀ {m m'}, Keeps m m' → m'.inlets.length = m.inlets.length → I m → I m'
  handles : ∀ {m m' p a}, Handles m p a m' → m'.inlets.length = m.inlets.length → J m' → I m → I m' ∧ m.Heeds p a
  before : ∀ {m m'}, (∀ p, m.handed p <+: m'.handed p) → J m' → J m

section
variable {I J : Merge L u → Prop} {m m' : Merge L u}

theorem handed_change (h : Change m m') (hreg : m.Regular) (p : InletId) : m.handed p <+: m'.handed p := by
  rcases h.keeps_or_handles hreg.balanced hreg.coherent with hk | ⟨k, a, hh⟩
  · exact ⟨[], by rw [hk.handed, List.append_nil]⟩
  · rw [hh.handed]
    exact List.prefix_append _ _

theorem Upholds.change (hI : Upholds I J) (h : Change m m') (hreg : m.Regular) (ht : m.Tidy)
    (hm : J m → I m ∧ m.Upright) (hJ : J m') : I m' ∧ m'.Upright := by
  obtain ⟨hi, hu⟩ := hm (hI.before (handed_change h hreg) hJ)
  refine ⟨?_, hu.change h hreg ht (hI.readable hreg hi) fun p a hh => (hI.handles hh h.count hJ hi).2⟩
  rcases h.keeps_or_handles hreg.balanced hreg.coherent with hk | ⟨p, a, hh⟩
  · exact hI.keeps hk h.count hi
  · exact (hI.handles hh h.count hJ hi).1

theorem upright_of_fresh {sources : List u.State} (h : Fresh m sources) : m.Upright := by
  refine .sound (fun e he => ?_) fun e hv => ?_
  · rw [h.history] at he
    cases he
  · rw [verdict?_of_isFinal (by rw [h.stage]; rfl)] at hv
    cases hv

/-- So a run of a merge that starts with such an invariant is upright. -/
theorem Upholds.play (hI : Upholds I J) {settings : Settings} {sources : List u.State}
    (hm : setUp L u settings sources = .ok m) (hi : I m) (moves : List (Move u))
    (hJ : J ((Session.start m).play moves).merge) : ((Session.start m).play moves).merge.Upright := by
  have hfresh := setUp_fresh hm
  -- `J` is known of the last merge only, and goes back from there; so the induction is on what follows from it.
  have h := (Session.play_changes moves (Session.start m)).induction
    (motive := fun m => m.Regular ∧ m.Tidy ∧ (J m → I m ∧ m.Upright))
    (fun _ _ hch ⟨hreg, ht, hm⟩ => ⟨hch.regular hreg, hch.tidy ht hreg.balanced, hI.change hch hreg ht hm⟩)
    ⟨hfresh.regular, hfresh.tidy, fun _ => ⟨hi, upright_of_fresh hfresh⟩⟩
  exact (h.2.2 hJ).2

end

/-- What a strategy remembers after the set-up comes from declaring the inlets. -/
theorem setUp_handles {settings : Settings} {sources : List u.State} {m : Merge L u}
    (h : setUp L u settings sources = .ok m) :
    ∃ handles, L.handles L.fresh sources.length = (.ok handles, m.memory) := by
  unfold setUp at h
  split at h
  · cases h
  · rename_i handles memory hd
    cases h
    unfold declare at hd
    split at hd
    · cases hd
    · rename_i inlets memory' hh
      split at hd
      · cases hd
      · cases hd
        exact ⟨_, hh⟩

end Merge

theorem sequentialHandles_eq_ok {merge : String} {expected : Arity} {count : Nat} {inlets : List InletId}
    (h : sequentialHandles merge expected count = .ok inlets) :
    expected.admits count = true ∧ inlets = List.range count := by
  unfold sequentialHandles at h
  split at h
  · rename_i ha
    exact ⟨ha, (Except.ok.inj h).symm⟩
  · cases h

namespace Merge

/-! ## Interleaving -/

/-- The strategy passes every element on, and stays as it is. -/
def Passes (L : Strategy α α) : Prop := ∀ memory count state p x,
  L.onElement memory count state p x = Strategy.pass memory state x

/-- The present choice names all inlets, and the merge goes on until all have ended. -/
structure Interleaves (m : Merge L u) : Prop where
  nonempty : 0 < m.inlets.length
  inlets : (L.choice m.memory m.state).inlets = List.range m.inlets.length
  exhaust : m.policy = .exhaust

theorem Interleaves.readable {m : Merge L u} (hi : m.Interleaves) (hreg : m.Regular) : m.Readable := by
  refine readable_of_open ?_ fun haim => ?_
  · have hne : List.range m.inlets.length ≠ [] := List.ne_nil_of_mem (List.mem_range.2 hi.nonempty)
    have hnone : (List.range m.inlets.length).find? (m.inlets.length ≤ ·) = none :=
      List.find?_range_eq_none.2 fun p hp => by simpa using hp
    unfold Choice.check
    rw [hi.inlets, if_neg fun h => hne (List.isEmpty_iff.1 h), hnone]
    rfl
  · obtain ⟨p, ho⟩ := hreg.exists_open haim
    rw [hi.inlets]
    exact ⟨p, List.mem_range.2 (lt_of_isOpen ho), ho⟩

theorem interleaves_upholds {L : Strategy α α} {u : Source α} (hL : Passes L) :
    Upholds (Interleaves (L := L) (u := u)) fun _ => True := by
  refine ⟨fun hreg hi => hi.readable hreg, fun hk hlen hi => ?_, fun {m m' p a} hh hlen _ hi => ?_,
    fun _ _ => trivial⟩
  · exact ⟨hlen ▸ hi.nonempty, by rw [hk.memory, hk.state, hlen, hi.inlets], hk.policy.trans hi.exhaust⟩
  · -- Only a failure asks for more than to pass an element on.
    obtain ⟨hmem, hnext, hpol, hheeds⟩ : (m.transition p a).memory = m.memory ∧ (m.transition p a).next = m.state ∧
        (Effects.ofActions (m.transition p a).actions).policy = none ∧ m.Heeds p a := by
      cases a with
      | element x =>
        have ht : m.transition p (.element x) = Strategy.pass m.memory m.state x := hL _ _ _ _ _
        exact ⟨by rw [ht]; rfl, by rw [ht]; rfl, by rw [ht]; rfl, .of_transition ht rfl rfl⟩
      | completed =>
        have ht : m.transition p .completed = m.remain [] := by unfold transition; rw [hi.exhaust]
        exact ⟨by rw [ht]; rfl, by rw [ht]; rfl, by rw [ht]; rfl, .of_transition ht rfl rfl⟩
      | failed c =>
        have ht : m.transition p (.failed c) = m.remain [.fail (.sourceFailed c)] := by
          unfold transition
          rw [hi.exhaust]
        exact ⟨by rw [ht]; rfl, by rw [ht]; rfl, by rw [ht]; rfl, .of_transition ht rfl rfl⟩
    have ho := hh.obeys hheeds.once
    refine ⟨⟨hlen ▸ hi.nonempty, ?_, ?_⟩, hheeds⟩
    · rw [ho.memory, ho.state, hmem, hnext, hlen, hi.inlets]
    · rw [ho.policy, hpol]
      exact hi.exhaust

/-- What a strategy that takes its inlets in ascending order remembers of them. -/
theorem memory_of_sequential {γ : Type} {merge : String} {expected : Arity} {count : Nat} {f : List InletId → γ}
    {before memory : γ} {handles : List InletId}
    (h : (match sequentialHandles merge expected count with
      | .ok inlets => (Except.ok inlets, f inlets)
      | .error e => (.error e, before)) = (.ok handles, memory)) :
    expected.admits count = true ∧ memory = f (List.range count) := by
  split at h
  · rename_i inlets hseq
    obtain ⟨hadmits, rfl⟩ := sequentialHandles_eq_ok hseq
    exact ⟨hadmits, (Prod.mk.inj h).2.symm⟩
  · cases h

theorem interleaves_fair {settings : Settings} {sources : List u.State} {m : Merge (Strategy.fair α) u}
    (h : setUp (Strategy.fair α) u settings sources = .ok m) : m.Interleaves := by
  have hlen := (setUp_fresh h).count
  obtain ⟨-, -, hpol⟩ := setUp_start h
  obtain ⟨handles, hh⟩ := setUp_handles h
  obtain ⟨hadmits, hmem⟩ := memory_of_sequential hh
  simp only [Arity.admits, Bool.and_eq_true, decide_eq_true_eq] at hadmits
  refine ⟨by omega, ?_, hpol⟩
  rw [hlen]
  exact hmem

theorem interleaves_preferred {settings : Settings} {sources : List u.State} {m : Merge (Strategy.preferred α) u}
    (h : setUp (Strategy.preferred α) u settings sources = .ok m) : m.Interleaves := by
  have hlen := (setUp_fresh h).count
  obtain ⟨-, -, hpol⟩ := setUp_start h
  obtain ⟨handles, hh⟩ := setUp_handles h
  obtain ⟨hadmits, hmem⟩ := memory_of_sequential hh
  simp only [Arity.admits, Bool.and_eq_true, decide_eq_true_eq] at hadmits
  have hpos : 0 < sources.length := by omega
  refine ⟨hlen ▸ hpos, ?_, hpol⟩
  rw [hlen]
  show 0 :: m.memory = List.range sources.length
  obtain ⟨n, hn⟩ := Nat.exists_eq_succ_of_ne_zero (Nat.ne_of_gt hpos)
  rw [hmem, hn, List.range_succ_eq_map]
  rfl

/-! ## Strict alternation -/

section
open Strategy

/-- Either both inlets are open and read in turn, or one is read alone and the other one has come to its end. -/
inductive Turning (m : Merge (alternate α) u) : Prop
  | both : m.state = .first ∨ m.state = .second → m.policy = .custom .drainOther →
      (m.stage.isFinal = false → ∀ p, p < 2 → m.status? p = some .live) → Turning m
  | alone (p : InletId) : p < 2 → m.state = .drain p → m.policy = .exhaust →
      m.status? (otherInlet p) = some .completed → Turning m

theorem otherInlet_lt (p : InletId) : otherInlet p < 2 := by
  unfold otherInlet
  split <;> decide

theorem eq_or_eq_otherInlet {p k : InletId} (hp : p < 2) (hk : k < 2) : k = p ∨ k = otherInlet p := by
  unfold otherInlet
  obtain rfl | rfl := Nat.le_one_iff_eq_zero_or_eq_one.1 (Nat.le_of_lt_succ hp)
  · obtain rfl | rfl := Nat.le_one_iff_eq_zero_or_eq_one.1 (Nat.le_of_lt_succ hk) <;> simp
  · obtain rfl | rfl := Nat.le_one_iff_eq_zero_or_eq_one.1 (Nat.le_of_lt_succ hk) <;> simp

theorem otherInlet_otherInlet {p : InletId} (hp : p < 2) : otherInlet (otherInlet p) = p := by
  obtain rfl | rfl := Nat.le_one_iff_eq_zero_or_eq_one.1 (Nat.le_of_lt_succ hp) <;> rfl

variable {m m' : Merge (alternate α) u}

theorem Turning.readable (hi : m.Turning) (htwo : m.inlets.length = 2) (hreg : m.Regular) : m.Readable := by
  have hcheck : m.state.inlet < 2 → ((alternate α).choice m.memory m.state).check m.inlets.length = none := by
    intro hlt
    simp [Choice.check, Choice.inlets, htwo, hlt]
  cases hi with
  | both hs _ hlive =>
    have hlt : m.state.inlet < 2 := by
      rcases hs with hs | hs <;> rw [hs] <;> decide
    exact readable_of_open (hcheck hlt) fun haim =>
      ⟨m.state.inlet, by simp [Choice.inlets], inletIs_isOpen_iff.2 (hlive haim.isFinal _ hlt)⟩
  | alone p hp hs _ hother =>
    refine readable_of_open (hcheck (by rw [hs]; exact hp)) fun haim => ?_
    obtain ⟨k, ho⟩ := hreg.exists_open haim
    refine ⟨p, by simp [Choice.inlets, hs, AlternateState.inlet], ?_⟩
    rcases eq_or_eq_otherInlet hp (htwo ▸ lt_of_isOpen ho) with rfl | rfl
    · exact ho
    · rw [inletIs_isOpen_iff, hother] at ho
      cases ho

theorem Turning.keeps (hi : m.Turning) (h : Keeps m m') : m'.Turning := by
  cases hi with
  | both hs hpol hlive =>
    refine .both (h.state ▸ hs) (h.policy.trans hpol) fun hr p hp => ?_
    rw [(h.status p).running hr]
    exact hlive (h.running hr) p hp
  | alone p hp hs hpol hother =>
    exact .alone p hp (h.state.trans hs) (h.policy.trans hpol) ((h.status _).completed_iff.2 hother)

theorem Turning.heeds (hi : m.Turning) (p : InletId) (a : Arrival α) : m.Heeds p a := by
  cases a with
  | element x => exact ⟨rfl, rfl⟩
  | completed =>
    have ht : m.transition p .completed = ⟨[.follow .exhaust], .drain (otherInlet p), ()⟩ ∨
        m.transition p .completed = m.remain [] := by
      unfold transition
      cases hi with
      | both _ hpol => exact Or.inl (by rw [hpol])
      | alone _ _ _ hpol => exact Or.inr (by rw [hpol])
    rcases ht with ht | ht
    · exact .of_transition ht rfl rfl
    · exact .of_transition ht rfl rfl
  | failed c =>
    have ht : m.transition p (.failed c) = m.remain [.fail (.sourceFailed c)] := by
      unfold transition
      cases m.policy <;> rfl
    exact .of_transition ht rfl rfl

/-- An event after which the one inlet is still read alone. -/
theorem Turning.remains {p k : InletId} {a : Arrival α} (h : Handles m p a m') (hk : k < 2) (hs : m.state = .drain k)
    (hpol : m.policy = .exhaust) (hother : m.status? (otherInlet k) = some .completed) : m'.Turning := by
  have ho := h.obeys (Turning.alone k hk hs hpol hother |>.heeds p a).once
  obtain ⟨hnext, hkeep, hrel⟩ : (m.transition p a).next = .drain k ∧
      (Effects.ofActions (m.transition p a).actions).policy = none ∧
      (Effects.ofActions (m.transition p a).actions).releases = [] := by
    cases a with
    | element x => exact ⟨by show m.state.afterElement = _; rw [hs]; rfl, rfl, rfl⟩
    | completed =>
      have ht : m.transition p .completed = m.remain [] := by unfold transition; rw [hpol]
      exact ⟨by rw [ht]; exact hs, by rw [ht]; rfl, by rw [ht]; rfl⟩
    | failed c =>
      have ht : m.transition p (.failed c) = m.remain [.fail (.sourceFailed c)] := by unfold transition; rw [hpol]
      exact ⟨by rw [ht]; exact hs, by rw [ht]; rfl, by rw [ht]; rfl⟩
  refine .alone k hk (ho.state.trans hnext) ?_ (h.completed_mono (ho.status hrel) _ hother)
  rw [ho.policy, hkeep]
  exact hpol

theorem Turning.handles (hi : m.Turning) (htwo : m.inlets.length = 2) {p : InletId} {a : Arrival α}
    (h : Handles m p a m') : m'.Turning := by
  have ho := h.obeys (hi.heeds p a).once
  cases hi with
  | alone k hk hs hpol hother => exact .remains h hk hs hpol hother
  | both hs hpol hlive =>
    cases a with
    | element x =>
      have hnext : m'.state = m.state.afterElement := ho.state
      refine .both ?_ (ho.policy.trans hpol) fun hr k hk => ?_
      · rw [hnext]
        rcases hs with hs | hs <;> rw [hs]
        · exact Or.inr rfl
        · exact Or.inl rfl
      · rw [(ho.status rfl k).running hr]
        split
        · rfl
        · exact hlive h.running k hk
    | completed =>
      have ht : m.transition p .completed = ⟨[.follow .exhaust], .drain (otherInlet p), ()⟩ := by
        unfold transition
        rw [hpol]
      refine .alone (otherInlet p) (otherInlet_lt p) (ho.state.trans (by rw [ht])) ?_ ?_
      · rw [ho.policy, ht]
        rfl
      · rw [otherInlet_otherInlet (htwo ▸ lt_of_isOpen h.isOpen)]
        exact (ho.status (by rw [ht]; rfl) p).completed_iff.2 (if_pos rfl)
    | failed c =>
      -- The run is over, so that it no longer matters which inlets are open.
      have ht : m.transition p (.failed c) = m.remain [.fail (.sourceFailed c)] := by
        unfold transition
        rw [hpol]
        rfl
      refine .both ?_ ?_ fun hr => ?_
      · rw [ho.state, ht]
        exact hs
      · rw [ho.policy, ht]
        exact hpol
      · rw [ho.stage, ht] at hr
        cases hr

theorem turning_upholds : Upholds (fun m : Merge (alternate α) u => m.inlets.length = 2 ∧ m.Turning) fun _ => True :=
  ⟨fun hreg ⟨htwo, hi⟩ => hi.readable htwo hreg, fun hk hlen ⟨htwo, hi⟩ => ⟨hlen.trans htwo, hi.keeps hk⟩,
    fun hh hlen _ ⟨htwo, hi⟩ => ⟨⟨hlen.trans htwo, hi.handles htwo hh⟩, hi.heeds _ _⟩, fun _ _ => trivial⟩

theorem turning_setUp {settings : Settings} {sources : List u.State}
    (h : setUp (alternate α) u settings sources = .ok m) : m.inlets.length = 2 ∧ m.Turning := by
  have hfresh := setUp_fresh h
  have hlen := hfresh.count
  obtain ⟨-, hs, hpol⟩ := setUp_start h
  obtain ⟨handles, hh⟩ := setUp_handles h
  obtain ⟨hadmits, -⟩ := sequentialHandles_eq_ok (Prod.mk.inj hh).1
  have htwo : m.inlets.length = 2 := by
    simp only [Arity.admits, Option.all_some, Bool.and_eq_true, decide_eq_true_eq] at hadmits
    omega
  exact ⟨htwo, .both (Or.inl hs) hpol fun _ p hp => hfresh.status? (htwo.symm ▸ hp)⟩

end

/-! ## Pairing -/

section
variable {γ : Type} {v : Source (Side β γ)} {m m' : Merge (Strategy.zip β γ) v}

/-- As long as the sources bring elements of their own side, no event breaks a rule of pairing. -/
theorem Paired.heeds (hi : m.Paired) {p : InletId} {a : Arrival (Side β γ)} (h : Handles m p a m')
    (hsided : m'.Sided) : m.Heeds p a := by
  cases a with
  | element e =>
    rcases hi.turn h hsided with ⟨x, hs, rfl, rfl, -⟩ | ⟨x, y, hs, rfl, rfl, hmem⟩
    · exact .of_transition (transition_readLeft hs 0 x) rfl rfl
    · exact .of_transition (transition_readRight hs hmem 1 y) rfl rfl
  | completed =>
    have ht : m.transition p .completed = m.remain [.complete] := by unfold transition; rw [hi.eager]
    exact .of_transition ht rfl rfl
  | failed c =>
    have ht : m.transition p (.failed c) = m.remain [.fail (.sourceFailed c)] := by unfold transition; rw [hi.eager]
    exact .of_transition ht rfl rfl

theorem paired_upholds : Upholds (fun m : Merge (Strategy.zip β γ) v => m.inlets.length = 2 ∧ m.Paired) Sided :=
  ⟨fun _ ⟨htwo, hi⟩ haim => hi.readable htwo haim.isFinal haim.closing,
    fun hk hlen ⟨htwo, hi⟩ => ⟨hlen.trans htwo, hi.keeps htwo hk⟩,
    fun hh hlen hsided ⟨htwo, hi⟩ => ⟨⟨hlen.trans htwo, hi.handles hh hsided⟩, hi.heeds hh hsided⟩,
    fun hpre hsided => hsided.before hpre⟩

end

end Merge

/-! ## All four strategies -/

namespace Session

/-- A session under one of the ready-made strategies. In pairing, the left source and the right source are those of the
two sides. -/
inductive ReadyMade : {α β : Type} → {L : Strategy α β} → {u : Source α} → Session L u → Prop
  | fair {α : Type} {u : Source α} {settings : Settings} {sources : List u.State} {m : Merge (Strategy.fair α) u}
      (moves : List (Move u)) : Merge.setUp (Strategy.fair α) u settings sources = .ok m →
      ReadyMade ((start m).play moves)
  | preferred {α : Type} {u : Source α} {settings : Settings} {sources : List u.State}
      {m : Merge (Strategy.preferred α) u} (moves : List (Move u)) :
      Merge.setUp (Strategy.preferred α) u settings sources = .ok m → ReadyMade ((start m).play moves)
  | alternate {α : Type} {u : Source α} {settings : Settings} {sources : List u.State}
      {m : Merge (Strategy.alternate α) u} (moves : List (Move u)) :
      Merge.setUp (Strategy.alternate α) u settings sources = .ok m → ReadyMade ((start m).play moves)
  | zip {α β : Type} {u : Source α} {v : Source β} {settings : Settings} {left : u.State} {right : v.State}
      {m : Merge (Strategy.zip α β) (Source.sides u v)} (moves : List (Move (Source.sides u v))) :
      Merge.setUp (Strategy.zip α β) (Source.sides u v) settings [.inl left, .inr right] = .ok m →
      (∀ mv ∈ moves, mv.KeepsSides) → ReadyMade ((start m).play moves)

/-- The run of this session breaks no rule, and fails only with a source. -/
structure Upright (s : Session L u) : Prop where
  /-- The run ends in an error exactly if a source has answered a poll with a failure. -/
  fails_iff : (∃ e, s.merge.verdict? = some (.error e)) ↔ ∃ p c, .polled p (.failed c) ∈ s.merge.history
  /-- The error is this failure, and no source is polled after it. -/
  cause : ∀ before p c after, s.merge.history = before ++ .polled p (.failed c) :: after →
    s.merge.verdict? = some (.error (.sourceFailed c)) ∧ ∀ e ∈ after, ¬ e.isPoll
  /-- No rule of a merge is broken, and nothing is wrong with its wiring. -/
  lawful : ∀ e, s.merge.verdict? = some (.error e) →
    (∀ violation, e ≠ .protocol violation) ∧ ∀ merge misfit, e ≠ .configuration merge misfit

theorem upright_of_merge {s : Session L u} (h : s.merge.Upright) : s.Upright := by
  cases h with
  | sound hs hv =>
    refine ⟨⟨fun ⟨e, he⟩ => absurd he (hv e), fun ⟨p, c, hin⟩ => absurd trivial (hs _ hin)⟩,
      fun before p c after heq => ?_, fun e he => absurd he (hv e)⟩
    exact absurd trivial (hs (.polled p (.failed c)) (by rw [heq]; simp))
  | failed p c before after heq hb ha hv =>
    refine ⟨⟨fun _ => ⟨p, c, by rw [heq]; simp⟩, fun _ => ⟨_, hv⟩⟩, fun before' p' c' after' heq' => ?_,
      fun e he => ?_⟩
    · obtain ⟨-, hsame, rfl⟩ := Merge.split_unique (P := Entry.isFailure) (heq'.symm.trans heq) trivial hb
        fun e he => Entry.not_isFailure_of_not_isPoll (ha e he)
      cases hsame
      exact ⟨hv, ha⟩
    · obtain rfl := Except.error.inj (Option.some.inj (hv.symm.trans he))
      exact ⟨fun _ h => (by cases h), fun _ _ h => (by cases h)⟩

/-- **The ready-made strategies break no rule, and fail only with a source.** For every number of inputs that they
accept, all sources and every order of moves. -/
theorem ReadyMade.upright {s : Session L u} (h : s.ReadyMade) : s.Upright := by
  refine upright_of_merge ?_
  cases h with
  | fair moves hm =>
    exact (Merge.interleaves_upholds fun _ _ _ _ _ => rfl).play hm (Merge.interleaves_fair hm) moves trivial
  | preferred moves hm =>
    exact (Merge.interleaves_upholds fun _ _ _ _ _ => rfl).play hm (Merge.interleaves_preferred hm) moves trivial
  | alternate moves hm => exact Merge.turning_upholds.play hm (Merge.turning_setUp hm) moves trivial
  | zip moves hm hk =>
    have htwo := (Merge.setUp_fresh hm).count
    exact Merge.paired_upholds.play hm ⟨htwo, Merge.paired_setUp hm htwo⟩ moves (play_sided hm hk)

/-- In turn, the second source fails while it is read alone, and with that the run; in pairs, the run is completed after
the right source had to be let through its gate. -/
theorem upright_scripted : ∃ m n,
    Merge.setUp (Strategy.alternate Nat) (scripted Nat) .standard
      [.ofList [1], .ofItems [.element 2, .element 3, .failure ⟨"broken", []⟩]] = .ok m ∧
    Merge.setUp (Strategy.zip Nat Nat) (Source.sides (scripted Nat) (scripted Nat)) .standard
      [.inl (.ofList [1]), .inr (.ofItems [.gate, .element 2])] = .ok n ∧
    ((start m).play [.request 9, .poll 60]).Upright ∧
    ((start m).play [.request 9, .poll 60]).merge.verdict? = some (.error (.sourceFailed ⟨"broken", []⟩)) ∧
    ((start n).play [.request 9, .poll 60, .adjust 1 (fun _ => true) (Sum.map id (Script.permit 1)),
      .poll 60]).Upright ∧
    ((start n).play [.request 9, .poll 60, .adjust 1 (fun _ => true) (Sum.map id (Script.permit 1)),
      .poll 60]).merge.verdict? = some (.ok .completed) := by
  have hm : Merge.setUp (Strategy.alternate Nat) (scripted Nat) .standard
      [.ofList [1], .ofItems [.element 2, .element 3, .failure ⟨"broken", []⟩]] = .ok _ := rfl
  have hn : Merge.setUp (Strategy.zip Nat Nat) (Source.sides (scripted Nat) (scripted Nat)) .standard
      [.inl (.ofList [1]), .inr (.ofItems [.gate, .element 2])] = .ok _ := rfl
  refine ⟨_, _, hm, hn, ReadyMade.upright (.alternate _ hm), by decide, ReadyMade.upright (.zip _ hn ?_), by decide⟩
  intro mv hmem
  simp only [List.mem_cons, List.not_mem_nil, or_false] at hmem
  rcases hmem with rfl | rfl | rfl | rfl
  · trivial
  · trivial
  · exact ⟨fun s => ⟨s, rfl⟩, fun t => ⟨_, rfl⟩⟩
  · trivial

end Session
end StreamMerge
