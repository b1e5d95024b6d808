import StreamMerge.Proofs.Lifecycle
import StreamMerge.Proofs.Requests
import StreamMerge.Proofs.Route
import StreamMerge.Proofs.Waiting

/-!
# Completed runs

A run is completed only when every inlet has ended, or when the last event asked for it (`Session.play_completes`). If
the strategy never asks for it, and releases nothing, then a completed run has seen every source through: it was polled
to its end or failure, and all that it yielded was handed over.
-/
namespace StreamMerge

variable {α β : Type} {L : Strategy α β} {u : Source α}

/-! ## What a source has reported -/

/-- The answer with which a source has brought its inlet to this status. -/
def InletStatus.answer? : InletStatus → Option (Reply α)
  | .completed => some .ended
  | .failed c => some (.failed c)
  | _ => none

theorem InletStatus.answer?_release (t : InletStatus) : (t.release.answer? : Option (Reply α)) = t.answer? := by
  cases t <;> rfl

theorem InletStatus.isLast_of_answer? {t : InletStatus} {r : Reply α} (h : t.answer? = some r) :
    r.isLast = true := by
  cases t with
  | completed =>
    obtain rfl := Option.some.inj h
    rfl
  | failed c =>
    obtain rfl := Option.some.inj h
    rfl
  | _ => cases h

theorem Arrival.status_ne_cancelled (a : Arrival α) : a.status ≠ .cancelled := by
  cases a <;> exact InletStatus.noConfusion

/-- The status that an answer leads to has come from it. -/
theorem Arrival.answer?_status {r : Reply α} {a : Arrival α} (h : Arrival.ofReply? r = some a)
    (ht : a.isTerminal = true) : a.status.answer? = some r := by
  cases r with
  | element x =>
    obtain rfl := Option.some.inj h
    cases ht
  | pending again => cases h
  | failed c =>
    obtain rfl := Option.some.inj h
    rfl
  | ended =>
    obtain rfl := Option.some.inj h
    rfl

namespace Merge

section
variable {m m' : Merge L u} {p : InletId} {a : Arrival α}

/-- An event that is taken up changes the status of its inlet; the run may end with it. -/
theorem Accepts.status (h : Accepts m p a m') (hb : m.Balanced) (k : InletId) :
    m'.status? k = (if k = p then some a.status else m.status? k) ∨
    m'.status? k = (if k = p then some a.status else m.status? k).map .release := by
  obtain ⟨choice, order, q, -, -, hq, ha⟩ := h
  have htaken := status?_taken hb hq ha k
  rcases inlet_dispatch ((m.seek order).2.putInlet p q.take.2) choice p a k with hk | hk
  · refine Or.inl (Eq.trans ?_ htaken)
    rw [status?, hk]
    rfl
  · refine Or.inr ?_
    rw [← htaken, status?, hk, status?, Option.map_map, Option.map_map]
    exact congrArg (Option.map · _) (funext fun q => q.status_release_eq)

/-- The end or the failure with which an inlet was closed was the answer of its source. -/
def Reported (m : Merge L u) : Prop := ∀ p status r, m.status? p = some status → status.answer? = some r →
  .polled p r ∈ m.history

theorem Reported.keeps (h : m.Reported) (hk : Keeps m m') (hx : Extends (fun _ => True) m m') : m'.Reported := by
  intro p status r hs hr
  obtain ⟨es, hes, -⟩ := hx
  rw [hes]
  refine List.mem_append_left es ?_
  rcases hk.status p with hp | ⟨-, hp⟩
  · exact h p status r (hp.symm.trans hs) hr
  · obtain ⟨t, ht, rfl⟩ := Option.map_eq_some_iff.1 (hp.symm.trans hs)
    exact h p t r ht (by rw [← t.answer?_release]; exact hr)

theorem Reported.accepts (h : m.Reported) (ha : Accepts m p a m') (ht : m.Tidy) (hb : m.Balanced) : m'.Reported := by
  intro k status r hs hr
  have hstatus : ∃ t, (if k = p then some a.status else m.status? k) = some t ∧ t.answer? = some r := by
    rcases ha.status hb k with hk | hk
    · exact ⟨status, hk.symm.trans hs, hr⟩
    · obtain ⟨t, ht, rfl⟩ := Option.map_eq_some_iff.1 (hk.symm.trans hs)
      exact ⟨t, ht, by rw [← t.answer?_release]; exact hr⟩
  obtain ⟨t, ht', hr'⟩ := hstatus
  split at ht'
  · rename_i hkp
    subst hkp
    obtain rfl := Option.some.inj ht'
    cases (ht.accepts hb ha).2 with
    | element hel =>
      obtain ⟨x, rfl⟩ := Arrival.isTerminal_eq_false.1 hel
      cases hr'
    | last r' choice reads after ha' hterm hh =>
      rw [Arrival.answer?_status ha' hterm] at hr'
      obtain rfl := Option.some.inj hr'
      rw [hh]
      simp
  · have hin := h k t r ht' hr'
    cases (ht.accepts hb ha).2 with
    | element _ hx =>
      obtain ⟨es, hes, -⟩ := hx
      rw [hes]
      exact List.mem_append_left es hin
    | last r' choice reads after _ _ hh =>
      rw [hh]
      simp [hin]

theorem Change.reported (h : Change m m') (hm : m.Reported) (ht : m.Tidy) (hb : m.Balanced) : m'.Reported := by
  rcases h.keeps_or_accepts with hk | ⟨p, a, ha⟩
  · exact hm.keeps hk ((h.extends_concerns hb).mono fun _ _ => trivial)
  · exact hm.accepts ha ht hb

theorem Fresh.reported {sources : List u.State} (h : Fresh m sources) : m.Reported := by
  intro p status r hs hr
  obtain ⟨q, hq, rfl⟩ := Option.map_eq_some_iff.1 hs
  rw [h.inlets, List.getElem?_map] at hq
  obtain ⟨s, -, rfl⟩ := Option.map_eq_some_iff.1 hq
  cases hr

theorem play_reported {settings : Settings} {sources : List u.State} (hm : setUp L u settings sources = .ok m)
    (moves : List (Move u)) : ((Session.start m).play moves).merge.Reported :=
  (play_invariant (motive := fun m => m.Tidy ∧ m.Reported) hm ⟨(setUp_fresh hm).tidy, (setUp_fresh hm).reported⟩
    (fun h hb _ ⟨ht, hr⟩ => ⟨h.tidy ht hb, h.reported hr ht hb⟩) moves).2

/-- A source whose end or failure was taken was polled until then, and given up. -/
theorem Tended.concluded (h : m.Tended) (hb : m.Balanced) (hrep : m.Reported) {status : InletStatus} {r : Reply α}
    (hs : m.status? p = some status) (hr : status.answer? = some r) :
    ∃ early, EarlyPolls p early ∧ m.dealings p = early ++ [.polled p r, .dropped p] := by
  obtain ⟨q, hq, rfl⟩ := Option.map_eq_some_iff.1 hs
  have hlast := InletStatus.isLast_of_answer? hr
  have hclosed : q.source = none := by
    refine ((hb p q hq).sound.closed (eq_false_of_ne_true fun ho => ?_)).2
    rw [show q.status = .live from Inlet.isOpen_iff.1 ho] at hr
    cases hr
  have hin : .polled p r ∈ m.dealings p :=
    List.mem_filter.2 ⟨hrep p _ r hs hr, by simp [Entry.deals]⟩
  cases h.living p q hq with
  | running _ hsome =>
    rw [hclosed] at hsome
    cases hsome
  | concluded early r' _ _ _ hsome =>
    rw [hclosed] at hsome
    cases hsome
  | gone early last heq hearly hlast' =>
    refine ⟨early, hearly, ?_⟩
    rw [heq, List.mem_append, List.mem_append] at hin
    rcases hin with (hin | hin) | hin
    · obtain ⟨r', hr', hfalse⟩ := hearly _ hin
      cases hr'
      rw [hlast] at hfalse
      cases hfalse
    · rcases hlast' with rfl | ⟨r', rfl, -⟩
      · cases hin
      · cases List.mem_singleton.1 hin
        rw [heq, List.append_assoc]
        rfl
    · cases List.mem_singleton.1 hin

/-! ## How a run comes to be completed -/

/-- An event whose transition emits twice ends the run in an error. -/
theorem Accepts.broken (h : Accepts m p a m') (hb : m.Balanced)
    (htwice : (Effects.ofActions (m.transition p a).actions).emittedTwice = true) :
    m'.verdict? = some (.error (.protocol .emittedTwice)) := by
  obtain ⟨choice, order, q, hst, hp, hq, ha⟩ := h
  obtain ⟨reads, outcome, hs⟩ := serves_of_found hb hst hp hq ha
  exact hs.broken htwice

/-- Where the run stands after an event depends on the first request to end the merge. -/
theorem Accepts.stage (h : Accepts m p a m') (hb : m.Balanced) (hc : m.Coherent) :
    (∃ e, m'.stage = .ended (.error e)) ∨
    m'.stage = .settling false ∧ (m.transition p a).actions.findSome? Action.closing? = none ∨
    m'.stage = .settling true ∧ (m.transition p a).actions.findSome? Action.closing? = some .complete := by
  cases htwice : (Effects.ofActions (m.transition p a).actions).emittedTwice with
  | true => exact Or.inl ⟨_, stage_of_verdict? (h.broken hb htwice)⟩
  | false =>
    have hst := ((h.handles hb hc).obeys htwice).stage
    rw [(Effects.amounts_ofActions _).closing] at hst
    cases hcl : (m.transition p a).actions.findSome? Action.closing? with
    | none =>
      rw [hcl] at hst
      exact Or.inr (Or.inl ⟨hst, rfl⟩)
    | some closing =>
      rw [hcl] at hst
      cases closing with
      | complete => exact Or.inr (Or.inr ⟨hst, rfl⟩)
      | fail e => exact Or.inl ⟨e, hst⟩

theorem Accepts.not_completed (h : Accepts m p a m') (hb : m.Balanced) (hc : m.Coherent) :
    m'.verdict? ≠ some (.ok .completed) := by
  intro hv
  have hst := stage_of_verdict? hv
  rcases h.stage hb hc with ⟨e, hs⟩ | ⟨hs, -⟩ | ⟨hs, -⟩ <;> rw [hst] at hs <;> cases hs

/-- Only the strategy asks for the merge to be completed, or the eager policy when an inlet has come to its end. -/
theorem isSome_handling_or_eager
    (h : (m.transition p a).actions.findSome? Action.closing? = some .complete) (next : L.State) :
    (m.handling p a next).isSome = true ∨ a = .completed ∧ m.policy = .eager := by
  unfold handling
  unfold transition at h
  cases a with
  | element x => exact Or.inl rfl
  | completed =>
    cases hp : m.policy with
    | exhaust =>
      rw [hp] at h
      cases h
    | eager => exact Or.inr ⟨rfl, rfl⟩
    | custom key => exact Or.inl rfl
  | failed c =>
    cases hp : m.policy with
    | custom key => exact Or.inl rfl
    | _ =>
      rw [hp] at h
      cases h

/-- A step with which a run is completed: there is nothing left to deliver, and the run was about to end or has no open
inlet. -/
theorem Step.completed (h : Step m m') (hr : m.stage.isFinal = false) (hv : m'.verdict? = some (.ok .completed))
    (hb : m.Balanced) (hc : m.Coherent) :
    m' = m.finish (.ok .completed) ∧ (m.stage.closing = true ∨ m.openInlets = 0) := by
  have hgoes : m'.stage.isFinal = false → False := by
    intro hr'
    rw [verdict?_of_isFinal hr'] at hv
    cases hv
  cases h with
  | opens => exact (hgoes rfl).elim
  | turns stage ht => exact (hgoes ht.isFinal_next).elim
  | starves => exact (hgoes hr).elim
  | hears => exact (hgoes hr).elim
  | delivers => exact (hgoes rfl).elim
  | tries m' _ _ ht =>
    cases ht with
    | waits choice order hst =>
      refine (hgoes ?_).elim
      rw [show _ = m.stage from (frame_seek m order).stage]
      exact hr
    | accepts choice order p a q hst hp hq ha =>
      exact absurd hv (Accepts.found choice order q hst hp hq ha |>.not_completed hb hc)
  | ends m₁ v he =>
    have hst := stage_of_verdict? hv
    rw [(finish_spec m₁ v).stage] at hst
    cases hst
    cases he with
    | completed closing hst _ hwhy => exact ⟨rfl, by rw [hst]; exact hwhy⟩
  | rests hf =>
    rw [hr] at hf
    cases hf

/-- The last event that was taken up along this route was answered by a request to complete the merge, which was the
first of its requests to end it: by the strategy, or by the eager policy at the end of an inlet. -/
inductive AskedToComplete (ms : List (Merge L u)) : Prop
  | last (before : List (Merge L u)) (m : Merge L u) (after : List (Merge L u)) (p : InletId) (a : Arrival α) :
      ms = before ++ m :: after → Accepts m p a m.step →
      (m.transition p a).actions.findSome? Action.closing? = some .complete →
      (m.handling p a (m.transition p a).next).isSome = true ∨ a = .completed ∧ m.policy = .eager →
      (∀ m' ∈ after, ∀ k b, ¬ Accepts m' k b m'.step) → AskedToComplete ms

/-- It stays the last event if none follows. -/
theorem AskedToComplete.snoc {ms : List (Merge L u)} (h : AskedToComplete ms)
    (hm : ∀ k b, ¬ Accepts m k b m.step) : AskedToComplete (ms ++ [m]) := by
  obtain ⟨before, m₁, after, p, a, rfl, hacc, hreq, hby, hlast⟩ := h
  refine .last before m₁ (after ++ [m]) p a (by simp) hacc hreq hby fun m' hm' => ?_
  rcases List.mem_append.1 hm' with hm' | hm'
  · exact hlast m' hm'
  · rw [List.mem_singleton.1 hm']
    exact hm

variable {ms : List (Merge L u)}

theorem Travels.regular (h : Travels m ms m') (hreg : m.Regular) : m'.Regular := h.changes.regular hreg

/-- **A run that is about to end was asked to.** -/
theorem Travels.asked (h : Travels m ms m') (hreg : m.Regular) (hc : m.stage.closing = false) :
    m'.stage.closing = true → AskedToComplete ms := by
  induction h with
  | start =>
    intro hcl
    rw [hc] at hcl
    cases hcl
  | outer _ ho ih => exact fun hcl => ih (ho.closing hcl)
  | @step ms m₁ htr _ _ ih =>
    intro hcl
    have hreg₁ := htr.regular hreg
    rcases (step_spec m₁).keeps_or_accepts with hk | ⟨p, a, hacc⟩
    · have hrun : m₁.step.stage.isFinal = false := by
        refine eq_false_of_ne_true fun hf => ?_
        rw [closing_of_isFinal hf] at hcl
        cases hcl
      have hcl₁ : m₁.stage.closing = true := (hk.closing hrun).symm.trans hcl
      refine (ih hcl₁).snoc fun k b hacc => ?_
      rw [(hacc.handles hreg₁.balanced hreg₁.coherent).closing] at hcl₁
      cases hcl₁
    · rcases hacc.stage hreg₁.balanced hreg₁.coherent with ⟨e, hst⟩ | ⟨hst, -⟩ | ⟨-, hreq⟩
      · rw [hst] at hcl
        cases hcl
      · rw [hst] at hcl
        cases hcl
      · exact .last ms m₁ [] p a rfl hacc hreq (isSome_handling_or_eager hreq _) fun _ h => by cases h

/-- `last` is where the run stood before the step that completed it, the last one of the route `ms`; since then the run
has stayed as this step left it. -/
structure CompletedFrom (m : Merge L u) (ms : List (Merge L u)) (last m' : Merge L u) : Prop where
  route : ∃ before, ms = before ++ [last] ∧ Travels m before last
  running : last.stage.isFinal = false
  finish : last.step = last.finish (.ok .completed)
  reason : last.openInlets = 0 ∨ AskedToComplete ms
  history : m'.history = last.step.history
  status : ∀ p, m'.status? p = last.step.status? p

/-- **A run is completed when every inlet has ended, or when it was asked for.** -/
theorem Travels.completed (h : Travels m ms m') (hreg : m.Regular) (hr : m.stage.isFinal = false)
    (hc : m.stage.closing = false) : m'.verdict? = some (.ok .completed) →
    ∃ last, CompletedFrom m ms last m' := by
  induction h with
  | start =>
    intro hv
    rw [verdict?_of_isFinal hr] at hv
    cases hv
  | outer _ ho ih =>
    intro hv
    obtain ⟨hst, hv₁⟩ := ho.verdict? hv
    obtain ⟨last, hlast⟩ := ih hv₁
    exact ⟨last, { hlast with
      history := (ho.change.rests (isFinal_of_verdict? hv₁)).1.trans hlast.history
      status := fun p => (ho.status hst p).trans (hlast.status p) }⟩
  | @step ms m₁ htr _ hr₁ ih =>
    intro hv
    have hreg₁ := htr.regular hreg
    obtain ⟨hfin, hwhy⟩ := (step_spec m₁).completed hr₁ hv hreg₁.balanced hreg₁.coherent
    refine ⟨m₁, ⟨ms, rfl, htr⟩, hr₁, hfin, ?_, rfl, fun _ => rfl⟩
    rcases hwhy with hcl | hz
    · exact Or.inr ((htr.asked hreg hc hcl).snoc fun k b hacc =>
        hacc.not_completed hreg₁.balanced hreg₁.coherent hv)
    · exact Or.inl hz

/-! ## Seeing the sources through -/

/-- Along this route the strategy never asks for the merge to be completed and releases no inlet, and the eager policy
is never followed. -/
structure Patient (ms : List (Merge L u)) : Prop where
  requests : ∀ m ∈ ms, ∀ p a, Accepts m p a m.step → (m.handling p a (m.transition p a).next).isSome = true →
    .complete ∉ (m.transition p a).actions ∧ ∀ k, .release k ∉ (m.transition p a).actions
  policy : ∀ m ∈ ms, m.policy ≠ .eager

theorem Patient.not_asked (h : Patient ms) : ¬ AskedToComplete ms := by
  rintro ⟨before, m, after, p, a, rfl, hacc, hreq, hby, -⟩
  rcases hby with hsome | ⟨-, he⟩
  · obtain ⟨x, hx, hxc⟩ := List.exists_of_findSome?_eq_some hreq
    rw [Action.closing?_eq_complete.1 hxc] at hx
    exact (h.requests m (by simp) p a hacc hsome).1 hx
  · exact h.policy m (by simp) he

/-- The end policies release nothing of their own accord. -/
theorem Patient.releases (h : Patient ms) (hm : m ∈ ms) (hacc : Accepts m p a m.step) :
    (Effects.ofActions (m.transition p a).actions).releases = [] := by
  refine Effects.releases_ofActions fun k => ?_
  cases hsome : (m.handling p a (m.transition p a).next).isSome with
  | true => exact (h.requests m hm p a hacc hsome).2 k
  | false =>
    unfold transition at hsome ⊢
    unfold handling at hsome
    cases a with
    | element x => cases hsome
    | completed =>
      cases hp : m.policy with
      | custom key =>
        rw [hp] at hsome
        cases hsome
      | _ => simp [remain]
    | failed c =>
      cases hp : m.policy with
      | custom key =>
        rw [hp] at hsome
        cases hsome
      | _ => simp [remain]

/-- So no inlet is released as long as the run is not over. -/
theorem Travels.uncancelled (h : Travels m ms m') (hreg : m.Regular) (hp : Patient ms)
    (hm : ∀ p, m.status? p ≠ some .cancelled) : m'.stage.isFinal = false → ∀ p, m'.status? p ≠ some .cancelled := by
  induction h with
  | start => exact fun _ => hm
  | outer _ ho ih =>
    intro hr p
    have hst := ho.running hr
    rw [ho.status hst p]
    exact ih hp (hst ▸ hr) p
  | @step ms m₁ htr _ hr₁ ih =>
    intro hr k
    have hreg₁ := htr.regular hreg
    have hp₁ : Patient ms := ⟨fun m hm => hp.requests m (by simp [hm]), fun m hm => hp.policy m (by simp [hm])⟩
    have hk₁ := ih hp₁ hr₁ k
    rcases (step_spec m₁).keeps_or_accepts with hk | ⟨p, a, hacc⟩
    · rw [(hk.status k).running hr]
      exact hk₁
    · have honce : (Effects.ofActions (m₁.transition p a).actions).emittedTwice = false := by
        refine eq_false_of_ne_true fun htwice => ?_
        rw [isFinal_of_verdict? (hacc.broken hreg₁.balanced htwice)] at hr
        cases hr
      have ho := (hacc.handles hreg₁.balanced hreg₁.coherent).obeys honce
      rw [(ho.status (hp.releases (by simp) hacc) k).running hr]
      split
      · exact fun hs => Arrival.status_ne_cancelled a (Option.some.inj hs)
      · exact hk₁

/-- A run of `count` sources was completed from `last` on when it had seen all of them through. -/
structure SeenThrough (m : Merge L u) (count : Nat) (last : Merge L u) : Prop where
  /-- Every inlet has come to its end or failed. -/
  closed : ∀ p, p < count → m.status? p = some .completed ∨ ∃ c, m.status? p = some (.failed c)
  /-- Every source was polled until it answered with its end or failure, and then given up. -/
  ended : ∀ p, p < count → ∃ early r, EarlyPolls p early ∧ r.isLast = true ∧
    m.dealings p = early ++ [.polled p r, .dropped p]
  /-- All that it yielded was handed to the strategy, in order. -/
  handed : ∀ p, p < count → m.yielded p = m.handed p
  /-- The last step had no source to give up. -/
  idle : m.history = last.history ++ (if last.link.receiving then [.delivered .complete] else []) ++
    [.logged (.completed last.handled 0)]

/-- A run that has no source left writes that it is completed, and tells the consumer if there is one. -/
theorem history_finish_completed (h : ∀ p, m.inletIs p (·.source.isSome) = false) :
    (m.finish (.ok .completed)).history = m.history ++
      (if m.link.receiving then [.delivered .complete] else []) ++ [.logged (.completed m.handled 0)] := by
  have hcount : m.inlets.countP (·.source.isSome) = 0 := by
    refine List.countP_eq_zero.2 fun q hq => ?_
    obtain ⟨p, hp⟩ := List.mem_iff_getElem?.1 hq
    have := h p
    rw [inletIs_iff_of_some hp] at this
    rw [this]
    exact Bool.false_ne_true
  have hnone : m.withSource = [] :=
    List.filter_eq_nil_iff.2 fun p _ => by rw [h p]; exact Bool.false_ne_true
  have hrel : m.releaseAll.history = m.history := by rw [history_releaseAll, hnone]; simp
  have hf := frame_releaseAll m
  have hhandled : m.releaseAll.handled = m.handled := congrArg Core.handled hf.core
  rw [finish_eq, hcount]
  show ((m.releaseAll.deliver .complete).log (.completed m.releaseAll.handled 0)).history = _
  rw [history_log, history_deliver, hrel, hhandled, hf.receiving]

theorem CompletedFrom.seenThrough {last : Merge L u} (h : CompletedFrom m ms last m') (hreg : m.Regular)
    (hlive : ∀ p, m.status? p ≠ some .cancelled) (hp : Patient ms) (hb : m'.Balanced) (ht : m'.Tended)
    (hrep : m'.Reported) {count : Nat} (hlen : m'.inlets.length = count) : m'.SeenThrough count last := by
  obtain ⟨before, rfl, htr⟩ := h.route
  have hbefore : Patient before := ⟨fun m hm => hp.requests m (by simp [hm]), fun m hm => hp.policy m (by simp [hm])⟩
  have hopen : last.openInlets = 0 := h.reason.resolve_right hp.not_asked
  have hcancelled := htr.uncancelled hreg hbefore hlive h.running
  have hbl := (htr.regular hreg).balanced
  have hstatus : ∀ p, m'.status? p = (last.status? p).map .release := by
    intro p
    rw [h.status, h.finish]
    exact status?_released (finish_spec last _).inlet p
  -- Every inlet was closed before the last step, and none by a release.
  have hclosed : ∀ p, p < count → m'.status? p = some .completed ∨ ∃ c, m'.status? p = some (.failed c) := by
    intro p hp
    obtain ⟨t', ht'⟩ := Option.isSome_iff_exists.1 (isSome_status?.2 (hlen ▸ hp))
    obtain ⟨t, ht, rfl⟩ := Option.map_eq_some_iff.1 ((hstatus p).symm.trans ht')
    have hlive := ne_live_of_openInlets hopen p
    have hcanc := hcancelled p
    rw [ht] at hlive hcanc
    cases t with
    | live => exact absurd rfl hlive
    | cancelled => exact absurd rfl hcanc
    | completed => exact Or.inl ht'
    | failed c => exact Or.inr ⟨c, ht'⟩
  refine ⟨hclosed, fun p hp => ?_, fun p hp => ?_, ?_⟩
  · have hanswer : ∃ t r, m'.status? p = some t ∧ t.answer? = some (r : Reply α) := by
      rcases hclosed p hp with hs | ⟨c, hs⟩
      · exact ⟨_, .ended, hs, rfl⟩
      · exact ⟨_, .failed c, hs, rfl⟩
    obtain ⟨t, r, hs, hr⟩ := hanswer
    obtain ⟨early, hearly, hd⟩ := ht.concluded hb hrep hs hr
    exact ⟨early, r, hearly, InletStatus.isLast_of_answer? hr, hd⟩
  · have hstat : ∃ t, m'.status? p = some t ∧ t.isTerminal = true ∧ t ≠ .cancelled := by
      rcases hclosed p hp with hs | ⟨c, hs⟩
      · exact ⟨_, hs, rfl, InletStatus.noConfusion⟩
      · exact ⟨_, hs, rfl, InletStatus.noConfusion⟩
    obtain ⟨t, hs, hterm, hcanc⟩ := hstat
    obtain ⟨q, hq, rfl⟩ := Option.map_eq_some_iff.1 hs
    have hbal := hb p q hq
    have ho : q.isOpen = false := by
      unfold Inlet.isOpen
      rw [hterm]
      rfl
    have hsettled : m'.yielded p = m'.handed p ++ q.kept.toList := hbal.settled hcanc
    rw [hsettled, show q.kept = none from Inlet.kept_of_empty (hbal.sound.closed ho).1]
    exact List.append_nil _
  · rw [h.history, h.finish]
    refine history_finish_completed fun p => eq_false_of_ne_true fun hs => ?_
    obtain ⟨q, hq, hs⟩ := inletIs_iff.1 hs
    have ho : q.isOpen = true := (hbl p q hq).sound.source_isSome.symm.trans hs
    exact List.countP_eq_zero.1 hopen q (List.mem_of_getElem? hq) ho

theorem Fresh.not_cancelled {sources : List u.State} (h : Fresh m sources) (p : InletId) :
    m.status? p ≠ some .cancelled := by
  intro hs
  rw [h.status? (isSome_status?.1 (by rw [hs]; rfl))] at hs
  cases hs

variable {settings : Settings} {sources : List u.State}

theorem play_completedFrom (hm : setUp L u settings sources = .ok m) (moves : List (Move u))
    (hv : ((Session.start m).play moves).merge.verdict? = some (.ok .completed)) :
    ∃ last, CompletedFrom m ((Session.start m).route moves) last ((Session.start m).play moves).merge := by
  have hfresh := setUp_fresh hm
  have htravels : m.Travels ([] ++ (Session.start m).route moves) ((Session.start m).play moves).merge :=
    Session.play_travels (s := Session.start m) moves .start
  exact htravels.completed hfresh.regular (by rw [hfresh.stage]; rfl) (by rw [hfresh.stage]; rfl) hv

theorem play_seenThrough (hm : setUp L u settings sources = .ok m) (moves : List (Move u)) {last : Merge L u}
    (h : CompletedFrom m ((Session.start m).route moves) last ((Session.start m).play moves).merge)
    (hp : Patient ((Session.start m).route moves)) :
    ((Session.start m).play moves).merge.SeenThrough sources.length last := by
  have hfresh := setUp_fresh hm
  exact h.seenThrough hfresh.regular hfresh.not_cancelled hp (play_balanced hm moves) (play_tended hm moves)
    (play_reported hm moves) (play_count hm moves)

end

end Merge

/-- **A completed run has a reason to be.** For every strategy, all sources and every order of moves: a run is completed
by its last step, with every inlet ended or because the last event that was taken up led to a request for it. And if the
strategy never makes this request and releases nothing, the run has seen every source through. -/
theorem Session.play_completes {settings : Settings} {sources : List u.State} {m : Merge L u}
    (hm : Merge.setUp L u settings sources = .ok m) (moves : List (Move u))
    (hv : ((start m).play moves).merge.verdict? = some (.ok .completed)) :
    ∃ before last, (start m).route moves = before ++ [last] ∧ last.stage.isFinal = false ∧
      last.step.verdict? = some (.ok .completed) ∧
      (last.openInlets = 0 ∨ Merge.AskedToComplete ((start m).route moves)) ∧
      (Merge.Patient ((start m).route moves) → ((start m).play moves).merge.SeenThrough sources.length last) := by
  obtain ⟨last, hlast⟩ := Merge.play_completedFrom hm moves hv
  obtain ⟨before, hroute, -⟩ := hlast.route
  refine ⟨before, last, hroute, hlast.running, ?_, hlast.reason, Merge.play_seenThrough hm moves hlast⟩
  rw [hlast.finish, Merge.verdict?, (Merge.finish_spec last _).stage]

/-- The fair strategy asks for nothing but emissions, so both sources are seen through. -/
theorem Session.play_completes_fair : ∃ m before last,
    Merge.setUp (Strategy.fair Nat) (scripted Nat) .standard [.ofList [1, 3], .ofItems [.pend 1, .element 2]] = .ok m ∧
    ((start m).play [.request 9, .poll 60]).merge.verdict? = some (.ok .completed) ∧
    (start m).route [.request 9, .poll 60] = before ++ [last] ∧ last.step.verdict? = some (.ok .completed) ∧
    ((start m).play [.request 9, .poll 60]).merge.SeenThrough 2 last := by
  have hm : Merge.setUp (Strategy.fair Nat) (scripted Nat) .standard
      [.ofList [1, 3], .ofItems [.pend 1, .element 2]] = .ok _ := rfl
  obtain ⟨before, last, hroute, -, hlast, -, hseen⟩ := play_completes hm [.request 9, .poll 60] rfl
  refine ⟨_, before, last, hm, rfl, hroute, hlast, hseen ⟨fun m _ p a _ hsome => ?_, fun m hmem he => ?_⟩⟩
  · cases a with
    | element x => exact ⟨by simp [Merge.transition, Strategy.pass], by simp [Merge.transition, Strategy.pass]⟩
    | _ =>
      -- The strategy has no end policy of its own.
      unfold Merge.handling at hsome
      cases hpol : m.policy with
      | custom key => exact nomatch key
      | _ =>
        rw [hpol] at hsome
        cases hsome
  · have hpolicy : m.policy ∈ List.replicate 24 EndPolicy.exhaust := List.mem_map_of_mem (f := Merge.policy) hmem
    cases he.symm.trans (List.eq_of_mem_replicate hpolicy)

end StreamMerge
