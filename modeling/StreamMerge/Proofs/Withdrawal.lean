import StreamMerge.Proofs.Consumer
import StreamMerge.Proofs.Course

/-!
# Withdrawal

A run is withdrawn once somebody has cancelled or nobody is left who could send a signal. From then on it does
nothing but take the signals that were sent before and end (`Step.withdraws`): the next poll ends it and gives up
every source that is left. When a source calls for cancellation in the middle of an attempt, the attempt is the last
one (`Session.play_withdrawable`).
-/
namespace StreamMerge

variable {α β : Type} {L : Strategy α β} {u : Source α}

/-! ## Activity -/

namespace Entry

/-- A source is polled, an event is taken up or handed to the strategy, or an element is emitted or delivered. -/
def isActivity : Entry L → Prop
  | .polled .. | .called _ | .arrived .. | .onElement .. | .onEnd .. | .onFailure .. | .emitted _
  | .delivered (.element _) => True
  | _ => False

/-- The inlet whose source is given up. -/
def dropped? : Entry L → Option InletId
  | .dropped p => some p
  | _ => none

/-- An entry about a signal, the end of the run or the log. -/
def isNotice : Entry L → Prop
  | .took _ | .logged _ => True
  | .delivered d => d.isTerminal = true
  | _ => False

theorem not_isActivity_of_isNotice {e : Entry L} (h : e.isNotice) : ¬ e.isActivity := by
  cases e with
  | delivered d =>
    cases d with
    | element y => cases h
    | complete => exact id
    | error e => exact id
  | _ => first | exact id | cases h

theorem dropped?_of_isNotice {e : Entry L} (h : e.isNotice) : e.dropped? = none := by
  cases e <;> first | rfl | cases h

end Entry

/-- How many steps lead from a stage to the end of a withdrawn run, without those that take signals. -/
def Stage.distance : Stage → Nat
  | .unpolled => 3
  | .settling _ | .awaiting _ => 2
  | .draining _ | .attempting .. => 1
  | .ended _ | .abandoned => 0

namespace Merge

/-! ## Giving up the sources -/

/-- The inlets that have a source, in order. -/
def withSource (m : Merge L u) : List InletId := m.inletIds.filter (m.inletIs · (·.source.isSome))

theorem history_release (m : Merge L u) (p : InletId) :
    (m.release p).history = m.history ++ if m.inletIs p (·.source.isSome) then [.dropped p] else [] := by
  unfold release
  split
  · rename_i hq
    rw [inletIs, hq]
    exact (List.append_nil _).symm
  · rename_i q hq
    unfold putInlet
    rw [inletIs_iff_of_some hq]
    cases hs : q.source.isSome with
    | true =>
      dsimp only
      rw [if_pos (by rfl)]
      exact history_note _ _
    | false => exact (List.append_nil _).symm

theorem inletIs_release_of_ne (m : Merge L u) {p k : InletId} (h : p ≠ k) (test : Inlet u → Bool) :
    (m.release p).inletIs k test = m.inletIs k test := by
  unfold inletIs
  rw [inlets_release, List.getElem?_modify]
  simp [h]

theorem history_foldl_release : ∀ (ps : List InletId) (m : Merge L u), ps.Nodup →
    (ps.foldl release m).history = m.history ++ (ps.filter (m.inletIs · (·.source.isSome))).map .dropped
  | [], m, _ => (List.append_nil _).symm
  | p :: ps, m, h => by
    obtain ⟨hp, hps⟩ := List.nodup_cons.1 h
    have hrest : ps.filter ((m.release p).inletIs · (·.source.isSome)) =
        ps.filter (m.inletIs · (·.source.isSome)) :=
      List.filter_congr fun k hk => inletIs_release_of_ne m (fun hpk : p = k => hp (hpk ▸ hk)) _
    rw [List.foldl_cons, history_foldl_release ps (m.release p) hps, history_release, hrest, List.filter_cons,
      List.append_assoc]
    split
    · rfl
    · rfl

/-- Every source that is left is given up once, in order. -/
theorem history_releaseAll (m : Merge L u) : m.releaseAll.history = m.history ++ m.withSource.map .dropped :=
  history_foldl_release m.inletIds m List.nodup_range

/-! ## The end of a withdrawn run -/

/-- `m'` has come to the end of the run of `m` at once: nothing was polled, handled or delivered, and every source
that was left was given up once, in order. -/
structure Stops (m m' : Merge L u) : Prop where
  ended : ∃ v, m'.verdict? = some v
  quiet : ∃ es, m'.history = m.history ++ es ∧ (∀ e ∈ es, ¬ e.isActivity) ∧
    es.filterMap Entry.dropped? = m.withSource
  released : ∀ p, m'.inletIs p (·.source.isSome) = false

theorem extends_announce_notice (m : Merge L u) (n : Nat) (v : Verdict) :
    Extends Entry.isNotice m (m.announce n v) := by
  have hlog : ∀ (m : Merge L u) (r : Record), Extends Entry.isNotice m (m.log r) :=
    fun m r => extends_note m (e := .logged r) trivial
  have hdeliver : ∀ (m : Merge L u) (d : Delivery β), d.isTerminal = true →
      Extends Entry.isNotice m (m.deliver d) := by
    intro m d hd
    refine ⟨_, history_deliver m d, fun e he => ?_⟩
    split at he
    · rw [List.mem_singleton.1 he]
      exact hd
    · cases he
  unfold announce
  split
  · exact (hdeliver _ _ rfl).trans (hlog _ _)
  · exact hlog _ _
  · exact (hlog _ _).trans (hdeliver _ _ rfl)

theorem stops_finish (m : Merge L u) (v : Verdict) : Stops m (m.finish v) := by
  have hf := finish_spec m v
  obtain ⟨es, hes, hok⟩ := extends_announce_notice m.releaseAll (m.inlets.countP (·.source.isSome)) v
  refine ⟨⟨v, by unfold verdict?; rw [hf.stage]⟩,
    ⟨m.withSource.map .dropped ++ es, ?_, fun e he => ?_, ?_⟩, fun p => ?_⟩
  · rw [← List.append_assoc, ← history_releaseAll, ← hes, finish_eq]
    rfl
  · rcases List.mem_append.1 he with he | he
    · obtain ⟨p, -, rfl⟩ := List.mem_map.1 he
      exact id
    · exact Entry.not_isActivity_of_isNotice (hok e he)
  · rw [List.filterMap_append, List.filterMap_eq_nil_iff.2 fun e he => Entry.dropped?_of_isNotice (hok e he),
      List.append_nil, List.filterMap_map]
    exact List.filterMap_some
  · refine eq_false_of_ne_true fun hs => ?_
    obtain ⟨q', hq', hs⟩ := inletIs_iff.1 hs
    rw [hf.inlet] at hq'
    obtain ⟨q, -, rfl⟩ := Option.map_eq_some_iff.1 hq'
    cases hs

/-- What comes before the end leaves the sources alone. -/
theorem Stops.of_notice {m m₁ m' : Merge L u} (h : Stops m₁ m') (hx : Extends Entry.isNotice m m₁)
    (hi : m₁.inlets = m.inlets) : Stops m m' := by
  obtain ⟨es, hes, hok⟩ := hx
  obtain ⟨es', hes', hok', hdrop⟩ := h.quiet
  refine ⟨h.ended, ⟨es ++ es', by rw [hes', hes, List.append_assoc], fun e he => ?_, ?_⟩, h.released⟩
  · rcases List.mem_append.1 he with he | he
    · exact Entry.not_isActivity_of_isNotice (hok e he)
    · exact hok' e he
  · have hsame : m₁.withSource = m.withSource := by
      unfold withSource inletIds inletIs
      rw [hi]
    rw [List.filterMap_append, List.filterMap_eq_nil_iff.2 fun e he => Entry.dropped?_of_isNotice (hok e he), hdrop,
      List.nil_append, hsame]

/-! ## Steps of a withdrawn run -/

/-- Somebody has cancelled, or nobody is left who could send a signal. -/
def IsWithdrawn (m : Merge L u) : Prop := .cancel ∈ m.link.signals ∨ m.link.senders = 0

/-- A bound on the steps to the end of a withdrawn run. -/
def distance (m : Merge L u) : Nat := m.link.signals.length + m.stage.distance

/-- A step of a withdrawn run that does not end it yet: the run comes nearer to its end, and does nothing else. -/
structure Nears (m m' : Merge L u) : Prop where
  running : m'.stage.isFinal = false
  awake : m'.awake = m.awake
  inlets : m'.inlets = m.inlets
  senders : m'.link.senders = m.link.senders
  signals : m'.link.signals = m.link.signals ∨ ∃ n, m.link.signals = .request n :: m'.link.signals
  notices : Extends Entry.isNotice m m'
  nearer : m'.distance < m.distance

theorem Nears.cancel_mem {m m' : Merge L u} (h : Nears m m') (hc : .cancel ∈ m.link.signals) :
    .cancel ∈ m'.link.signals := by
  rcases h.signals with hs | ⟨n, hs⟩
  · exact hs ▸ hc
  · rw [hs] at hc
    simpa using hc

theorem Nears.isWithdrawn {m m' : Merge L u} (h : Nears m m') (hw : m.IsWithdrawn) : m'.IsWithdrawn :=
  hw.imp h.cancel_mem fun hz => h.senders.trans hz

theorem IsWithdrawn.not_silent {m : Merge L u} (hw : m.IsWithdrawn) (hs : m.link.signals = [])
    (h0 : m.link.senders ≠ 0) : False := by
  rcases hw with hc | hz
  · rw [hs] at hc
    cases hc
  · exact h0 hz

/-- A withdrawn run goes on only where it was waiting for credit that has come since. -/
theorem IsWithdrawn.stage_of_aims {m : Merge L u} {aim : Aim} (hw : m.IsWithdrawn) (h : m.Aims aim) :
    m.stage = .awaiting aim := by
  rcases h with ⟨-, hs, h0⟩ | h
  · exact (hw.not_silent hs h0).elim
  · exact h

theorem Turns.nears {m : Merge L u} {stage : Stage} (h : Turns m stage) (hw : m.IsWithdrawn) (hc : m.Coherent) :
    Nears m { m with stage } := by
  suffices hd : stage.distance < m.stage.distance from
    ⟨h.isFinal_next, rfl, rfl, rfl, Or.inl rfl, .of_eq rfl, Nat.add_lt_add_left hd _⟩
  cases h with
  | deliver closing hst => rw [hst]; exact (by decide : 1 < 2)
  | read hst => rw [hst]; exact (by decide : 1 < 2)
  | await aim _ hs h0 => exact (hw.not_silent hs h0).elim
  | choose order haim => rw [hw.stage_of_aims haim]; exact (by decide : 1 < 2)
  | settle closing haim => exact absurd (hw.stage_of_aims haim) hc.not_awaiting_deliver

theorem Ends.notices {m m' : Merge L u} {v : Verdict} (h : Ends m m' v) : Extends Entry.isNotice m m' := by
  cases h with
  | withdrawn rest =>
    exact extends_note ({ m with link := { m.link with signals := rest } }) (e := .took .cancel) trivial
  | stuck => exact extends_note m (e := .logged _) trivial
  | _ => exact .of_eq rfl

/-- **A withdrawn run comes nearer to its end with every step, and does nothing else.** -/
theorem Step.withdraws {m m' : Merge L u} (h : Step m m') (hr : m.stage.isFinal = false) (hw : m.IsWithdrawn)
    (hc : m.Coherent) : Nears m m' ∨ Stops m m' := by
  cases h with
  | opens hst =>
    exact Or.inl ⟨rfl, rfl, rfl, rfl, Or.inl rfl, extends_opening Entry.isNotice m trivial trivial,
      Nat.add_lt_add_left (by rw [hst]; exact (by decide : 2 < 3)) _⟩
  | turns stage ht => exact Or.inl (ht.nears hw hc)
  | starves aim _ _ hs h0 => exact (hw.not_silent hs h0).elim
  | hears n rest _ hs =>
    refine Or.inl ⟨hr, rfl, rfl, rfl, Or.inr ⟨n, hs⟩, extends_note _ (e := .took (.request n)) trivial, ?_⟩
    show rest.length + _ < m.link.signals.length + _
    rw [hs]
    exact Nat.add_lt_add_right (Nat.lt_succ_self _) _
  | delivers closing y haim => exact absurd (hw.stage_of_aims haim) hc.not_awaiting_deliver
  | tries m' hs h0 => exact (hw.not_silent hs h0).elim
  | ends m₁ v h => exact Or.inr ((stops_finish m₁ v).of_notice h.notices h.inlets)
  | rests hf =>
    rw [hr] at hf
    cases hf

/-! ## Polls of a withdrawn run -/

theorem isFinal_of_verdict? {m : Merge L u} {v : Verdict} (h : m.verdict? = some v) : m.stage.isFinal = true := by
  rw [stage_of_verdict? h]
  rfl

theorem distance_pos {m : Merge L u} (h : m.stage.isFinal = false) : 0 < m.distance := by
  unfold distance
  have : 0 < m.stage.distance := by
    cases hst : m.stage <;> first | exact Nat.succ_pos _ | (rw [hst] at h; cases h)
  omega

theorem distance_le (m : Merge L u) : m.distance ≤ m.link.signals.length + 3 := by
  unfold distance
  have : m.stage.distance ≤ 3 := by cases m.stage <;> simp [Stage.distance]
  omega

theorem advance_stops : ∀ (fuel : Nat) (m : Merge L u), m.awake = true → m.stage.isFinal = false →
    m.IsWithdrawn → m.Coherent → m.distance ≤ fuel → Stops m (m.advance fuel)
  | 0, m, _, hr, _, _, hd => absurd (distance_pos hr) (Nat.not_lt.2 hd)
  | fuel + 1, m, ha, hr, hw, hc, hd => by
    rw [advance_succ ha]
    rcases (step_spec m).withdraws hr hw hc with h | h
    · have hnear := h.nearer
      exact (advance_stops fuel m.step (h.awake.trans ha) h.running (h.isWithdrawn hw)
        ((step_spec m).coherent hc ha) (by omega)).of_notice h.notices h.inlets
    · obtain ⟨v, hv⟩ := h.ended
      rw [advance_of_isFinal (isFinal_of_verdict? hv)]
      exact h

/-- **The next poll of a withdrawn run ends it.** -/
theorem poll_stops {m : Merge L u} (hr : m.stage.isFinal = false) (hw : m.IsWithdrawn) (hc : m.Coherent) {fuel : Nat}
    (hf : m.link.signals.length + 3 ≤ fuel) : Stops m (m.poll fuel) := by
  unfold poll
  rw [if_neg (by rw [hr]; exact Bool.false_ne_true)]
  have hrouse : Change m { m with awake := true, link := m.link.heed } := .rouse m hr
  have hd := distance_le ({ m with awake := true, link := m.link.heed } : Merge L u)
  have h := advance_stops fuel { m with awake := true, link := m.link.heed } rfl hr hw (hrouse.coherent hc)
    (Nat.le_trans hd hf)
  exact h.of_notice (.of_eq rfl) rfl

/-! ## Cancelled by a source -/

/-- If a source called for cancellation since `m`, the call is among the signals. -/
def Heard (m m' : Merge L u) : Prop :=
  ∃ es, m'.history = m.history ++ es ∧ ((∃ p, .called p ∈ es) → .cancel ∈ m'.link.signals)

theorem heard_fill {m m' : Merge L u} (h : Heard m m') (p : InletId) (ha : m'.link.attached = true) :
    Heard m (m'.fill p) := by
  obtain ⟨es, hes, hcall⟩ := h
  rcases fill_cases m' p with hf | ⟨q, s, hf⟩
  · rw [hf]
    exact ⟨es, hes, hcall⟩
  · have hs := signals_fill hf
    rw [if_pos ha] at hs
    refine ⟨es ++ (List.replicate (u.poll s).cancels (.called p) ++ [.polled p (u.poll s).reply]),
      by rw [hf.history, hes, List.append_assoc], fun ⟨k, hk⟩ => ?_⟩
    rw [hs, List.mem_append]
    rcases List.mem_append.1 hk with hk | hk
    · exact Or.inl (hcall ⟨k, hk⟩)
    · rcases List.mem_append.1 hk with hk | hk
      · exact Or.inr (List.mem_replicate.2 ⟨(List.mem_replicate.1 hk).1, rfl⟩)
      · cases List.mem_singleton.1 hk

theorem heard_seek (m : Merge L u) (order : List InletId) (ha : m.link.attached = true) :
    Heard m (m.seek order).2 :=
  (seek_induction (motive := fun m' => m'.link.attached = true ∧ Heard m m')
    (fun m' p ⟨ha', h⟩ => ⟨(frame_fill m' p).attached.trans ha', heard_fill h p ha'⟩) m order
    ⟨ha, [], by simp, by simp⟩).2

/-- A run that was cancelled ends, or has the call before it. -/
def Doomed (m : Merge L u) : Prop := m.stage.isFinal = true ∨ .cancel ∈ m.link.signals

/-- A step in which a source calls for cancellation makes an attempt, and dooms the run. -/
theorem Tries.doomed {m m' : Merge L u} (h : Tries m m') (ha : m.link.attached = true) {es : List (Entry L)}
    (hes : m'.history = m.history ++ es) {k : InletId} (hk : .called k ∈ es) : m'.Doomed := by
  cases h with
  | waits choice order =>
    obtain ⟨rd, hrd, hcall⟩ := heard_seek m order ha
    obtain rfl : rd = es := List.append_cancel_left (hrd.symm.trans hes)
    exact Or.inr (hcall ⟨k, hk⟩)
  | accepts choice order p a q =>
    obtain ⟨rd, hrd, hcall⟩ := heard_seek m order ha
    obtain ⟨ds, hds, hdrop⟩ := extends_putInlet (m.seek order).2 p q.take.2
    obtain ⟨rs, hh, hout, -⟩ := history_dispatch ((m.seek order).2.putInlet p q.take.2) choice p a
    rw [hds, hrd, List.append_assoc, List.append_assoc] at hh
    obtain rfl := List.append_cancel_left (hes.symm.trans hh)
    -- Only the reading before the event can have brought the call.
    have hrd : .called k ∈ rd := by
      rcases List.mem_append.1 hk with hk | hk
      · exact hk
      · rcases List.mem_append.1 hk with hk | hk
        · cases hdrop _ hk
        · rcases List.mem_cons.1 hk with hk | hk
          · cases hk
          · rcases List.mem_append.1 hk with hk | hk
            · cases isCall_handling hk
            · cases hout _ hk
    cases closes_dispatch ((m.seek order).2.putInlet p q.take.2) choice p a with
    | ended hf => exact Or.inl hf
    | goesOn _ _ hl =>
      refine Or.inr ?_
      rw [hl, link_putInlet]
      exact hcall ⟨k, hrd⟩

theorem Tries.isFinal {m m' : Merge L u} (h : Tries m m') : m.stage.isFinal = false := by
  cases h with
  | waits choice order hst => rw [hst]; rfl
  | accepts choice order p a q hst => rw [hst]; rfl

/-- An attempt delivers no element. -/
theorem Tries.not_delivered {m m' : Merge L u} (h : Tries m m') {es : List (Entry L)}
    (hes : m'.history = m.history ++ es) (y : β) : .delivered (.element y) ∉ es := by
  intro hy
  have hsent := h.sent
  unfold Merge.sent deliveries at hsent
  rw [hes, List.filterMap_append, List.filterMap_append] at hsent
  have hnone := List.append_cancel_left (hsent.trans (List.append_nil _).symm)
  rw [List.filterMap_eq_nil_iff] at hnone
  exact absurd (hnone (.element y) (List.mem_filterMap.2 ⟨_, hy, rfl⟩)) (by simp [Delivery.element?])

/-- Whatever happens to a doomed run, nothing is done any more. -/
theorem Change.doomed {m m' : Merge L u} (h : Change m m') (hd : m.Doomed) (hc : m.Coherent) :
    m'.Doomed ∧ Extends (fun e => ¬ e.isActivity) m m' := by
  have hkeep : ∀ ss, m'.link.signals = m.link.signals ++ ss → m'.stage = m.stage → m'.Doomed := by
    intro ss hs hst
    rcases hd with hf | hmem
    · exact Or.inl (hst ▸ hf)
    · exact Or.inr (by rw [hs]; exact List.mem_append_left ss hmem)
  cases h with
  | step =>
    cases hf : m.stage.isFinal with
    | true =>
      rw [step_of_isFinal hf]
      exact ⟨hd, .refl m⟩
    | false =>
      rcases hd with hf' | hmem
      · rw [hf] at hf'
        cases hf'
      · rcases (step_spec m).withdraws hf (Or.inl hmem) hc with h | h
        · exact ⟨Or.inr (h.cancel_mem hmem), h.notices.mono fun _ => Entry.not_isActivity_of_isNotice⟩
        · obtain ⟨v, hv⟩ := h.ended
          obtain ⟨es, hes, hok, -⟩ := h.quiet
          exact ⟨Or.inl (isFinal_of_verdict? hv), es, hes, hok⟩
  | rouse => exact ⟨hkeep [] (List.append_nil _).symm rfl, .of_eq rfl⟩
  | relink k hk =>
    obtain ⟨ss, hs⟩ := hk.signals
    exact ⟨hkeep ss hs rfl, .of_eq rfl⟩
  | adjust => exact ⟨hkeep [] (List.append_nil _).symm rfl, .of_eq rfl⟩
  | abandon => exact ⟨Or.inl rfl, (extends_releaseAll m).mono fun e ⟨p, he⟩ => he ▸ id⟩

theorem Changes.doomed {m m' : Merge L u} (h : Changes m m') (hd : m.Doomed) (hc : m.Coherent) :
    Extends (fun e => ¬ e.isActivity) m m' :=
  (h.induction (motive := fun m' => m'.Doomed ∧ m'.Coherent ∧ Extends (fun e => ¬ e.isActivity) m m')
    (fun _ _ hch ⟨hd, hc, hx⟩ => ⟨(hch.doomed hd hc).1, hch.coherent hc, hx.trans (hch.doomed hd hc).2⟩)
    ⟨hd, hc, .refl m⟩).2.2

end Merge

/-! ## Withdrawal -/

/-- What becomes of a session when its merge is withdrawn. -/
structure Session.Withdrawable (s : Session L u) : Prop where
  /-- If somebody has cancelled, or nobody is left who could send a signal, the next poll ends the run, whatever else
  was signalled before. -/
  stops : s.merge.stage.isFinal = false → s.merge.IsWithdrawn →
    ∀ fuel, s.merge.link.signals.length + 3 ≤ fuel → s.merge.Stops (s.merge.poll fuel)
  /-- A step in which a source calls for cancellation takes up one event at most and delivers no element; whatever
  follows, nothing is polled, taken up, emitted or delivered any more. -/
  last : s.merge.awake = true → ∀ es, s.merge.step.history = s.merge.history ++ es → ∀ p, .called p ∈ es →
    (es.filterMap Entry.arrival?).length ≤ 1 ∧ (∀ y, .delivered (.element y) ∉ es) ∧
    ∀ m', Merge.Changes s.merge.step m' →
      ∃ es', m'.history = s.merge.step.history ++ es' ∧ ∀ e ∈ es', ¬ e.isActivity

namespace Session

/-- **Withdrawal stops a merge at once.** For every strategy, all sources and every order of moves. -/
theorem play_withdrawable {settings : Settings} {sources : List u.State} {m : Merge L u}
    (hm : Merge.setUp L u settings sources = .ok m) (moves : List (Move u)) :
    ((start m).play moves).Withdrawable := by
  have hb := Merge.play_balanced hm moves
  have hc := Merge.play_coherent hm moves
  have hatt := Merge.play_attached hm moves
  refine ⟨fun hr hw fuel hf => Merge.poll_stops hr hw hc hf, fun ha es hes p hp => ?_⟩
  have hstep := Merge.step_spec ((start m).play moves).merge
  obtain ⟨es', hes', htransits⟩ := hstep.transits hb
  obtain rfl := List.append_cancel_left (hes.symm.trans hes')
  rcases hstep.aside_or_tries with haside | htry
  · obtain ⟨es', hes', hok⟩ := haside.history
    obtain rfl := List.append_cancel_left (hes.symm.trans hes')
    cases hok _ hp
  · exact ⟨htransits.atMostOne, htry.not_delivered hes,
      fun m' h => h.doomed (htry.doomed (hatt htry.isFinal) hes hp) (hstep.coherent hc ha)⟩

/-- A source calls for cancellation while it is polled: the element it answers with is taken up and not delivered. And
when the consumer cancels before the first poll, this poll ends the run and gives up both sources. -/
theorem play_withdrawable_fair : ∃ m,
    Merge.setUp (Strategy.fair Nat) (scripted Nat) .standard [.ofItems [.cancel, .element 1], .ofList [2]] = .ok m ∧
    ((start m).play [.request 2, .poll 4]).Withdrawable ∧
    ((start m).play [.request 2, .poll 4]).merge.awake = true ∧
    (∃ es, ((start m).play [.request 2, .poll 4]).merge.step.history =
      ((start m).play [.request 2, .poll 4]).merge.history ++ .called 0 :: es) ∧
    ((start m).play [.request 2, .poll 5, .poll 9]).merge.sent = [] ∧
    ((start m).play [.request 2, .cancel]).Withdrawable ∧
    ((start m).play [.request 2, .cancel]).merge.stage.isFinal = false ∧
    ((start m).play [.request 2, .cancel]).merge.IsWithdrawn ∧
    ((start m).play [.request 2, .cancel]).merge.withSource = [0, 1] := by
  have hm : Merge.setUp (Strategy.fair Nat) (scripted Nat) .standard
      [.ofItems [.cancel, .element 1], .ofList [2]] = .ok _ := rfl
  exact ⟨_, hm, play_withdrawable hm _, rfl, ⟨_, rfl⟩, rfl, play_withdrawable hm _, rfl, Or.inl (by decide), rfl⟩

end Session
end StreamMerge
