import StreamMerge.Proofs.Withdrawal

/-!
# The records of the log

What the log says is what happened. The figures in its records are counted by the merge as it goes along; they are
those that its history gives (`Reckoned`), and the last record of a run is written once, when the run has given up
what was still open (`Session.play_recorded`).
-/
namespace StreamMerge

variable {α β : Type} {L : Strategy α β} {u : Source α}

/-! ## What the records are about -/

/-- The last record of a run. -/
def Record.isLast : Record → Bool
  | .completed .. | .cancelled .. | .failed .. => true
  | _ => false

/-- The last record of a run with the verdict `v`. -/
def lastRecord (handled released credit : Nat) : Verdict → Record
  | .ok .completed => .completed handled released
  | .ok .cancelled => .cancelled handled released credit
  | .error e => .failed e handled released

namespace Entry

/-- The event that is taken up. -/
def arrived? : Entry L → Option (InletId × Arrival α)
  | .arrived _ p a => some (p, a)
  | _ => none

/-- The signal that the source of `p` yielded. -/
def brought? (p : InletId) : Entry L → Option (Arrival α)
  | .polled q r => if q = p then Arrival.ofReply? r else none
  | _ => none

/-- The event that is traced. -/
def traced? : Entry L → Option (InletId × String)
  | .logged (.transition p kind _ _ _) => some (p, kind)
  | _ => none

/-- The last record of a run. -/
def lastRecord? : Entry L → Option Record
  | .logged r => if r.isLast then some r else none
  | _ => none

/-- An entry that does not change the figures. -/
def isAside : Entry L → Prop
  | .polled .. | .arrived .. | .logged (.transition ..) => False
  | _ => True

/-- An entry that is none of the last records either. -/
def isQuiet (e : Entry L) : Prop := e.isAside ∧ e.lastRecord? = none

section
variable {e : Entry L}

theorem arrived?_of_isAside (h : e.isAside) : e.arrived? = none := by
  cases e <;> first | rfl | cases h

theorem brought?_of_isAside (h : e.isAside) (p : InletId) : e.brought? p = none := by
  cases e <;> first | rfl | cases h

theorem traced?_of_isAside (h : e.isAside) : e.traced? = none := by
  cases e with
  | logged r => cases r <;> first | rfl | cases h
  | _ => rfl

theorem lastRecord?_of_isReading (h : Merge.isReading e) : e.lastRecord? = none := by
  cases e <;> first | rfl | cases h

theorem isQuiet_of_isCall (h : Merge.isCall e) : e.isQuiet := by
  cases e <;> first | exact ⟨trivial, rfl⟩ | cases h

end

end Entry

/-- The events that were taken up. -/
def arrivals (es : List (Entry L)) : List (InletId × Arrival α) := es.filterMap Entry.arrived?

/-- The signals that the source of `p` has yielded. -/
def brought (p : InletId) (es : List (Entry L)) : List (Arrival α) := es.filterMap (Entry.brought? p)

/-- The events that were traced. -/
def traced (es : List (Entry L)) : List (InletId × String) := es.filterMap Entry.traced?

/-- The last records of runs. -/
def lastRecords (es : List (Entry L)) : List Record := es.filterMap Entry.lastRecord?

namespace Inlet

theorem pulls_store (q : Inlet u) (r : Polled α u.State) :
    (q.store r).pulls = q.pulls + (Arrival.ofReply? r.reply).toList.length := by
  unfold store
  split
  · rename_i h; rw [h]; rfl
  · rename_i h; rw [h]; rfl

theorem pulls_take (q : Inlet u) : q.take.2.pulls = q.pulls := by
  unfold take
  split <;> rfl

end Inlet

namespace Merge

/-! ## Silent changes -/

/-- `m'` differs from `m` in nothing that the records are about. -/
structure Silent (m m' : Merge L u) : Prop where
  handled : m'.handled = m.handled
  tracing : m'.tracing = m.tracing
  pulls : ∀ p : InletId, m'.inlets[p]?.map (·.pulls) = m.inlets[p]?.map (·.pulls)
  history : Extends Entry.isQuiet m m'

namespace Silent

variable {m m' m'' : Merge L u}

theorem refl (m : Merge L u) : Silent m m := ⟨rfl, rfl, fun _ => rfl, .refl m⟩

theorem trans (h : Silent m m') (h' : Silent m' m'') : Silent m m'' :=
  ⟨h'.handled.trans h.handled, h'.tracing.trans h.tracing, fun p => (h'.pulls p).trans (h.pulls p),
    h.history.trans h'.history⟩

theorem of_eq (hc : m'.core = m.core) (hi : m'.inlets = m.inlets) (hx : Extends Entry.isQuiet m m') : Silent m m' :=
  ⟨congrArg Core.handled hc, congrArg Core.tracing hc, fun p => by rw [hi], hx⟩

end Silent

theorem silent_putInlet {m : Merge L u} {p : InletId} {q q' : Inlet u} (hq : m.inlets[p]? = some q)
    (hp : q'.pulls = q.pulls) : Silent m (m.putInlet p q') := by
  have hf := frame_putInlet m p q'
  refine ⟨congrArg Core.handled hf.core, congrArg Core.tracing hf.core, fun k => ?_,
    (extends_putInlet m p q').mono fun e he => he ▸ ⟨trivial, rfl⟩⟩
  rw [inlets_putInlet, List.getElem?_set]
  split
  · rename_i hpk
    subst hpk
    rw [if_pos (List.getElem?_eq_some_iff.1 hq).1, hq]
    exact congrArg some hp
  · rfl

theorem silent_release (m : Merge L u) (p : InletId) : Silent m (m.release p) := by
  unfold release
  split
  · exact .refl m
  · rename_i q hq
    exact silent_putInlet hq rfl

theorem silent_releaseAll (m : Merge L u) : Silent m m.releaseAll :=
  foldl_release_induction (motive := Silent m) (fun _ p h => h.trans (silent_release _ p)) _ m (.refl m)

theorem silent_log (m : Merge L u) {r : Record} (h : (.logged r : Entry L).isQuiet) : Silent m (m.log r) :=
  .of_eq rfl rfl (extends_note m h)

theorem silent_releaseNamed : ∀ (ps : List InletId) (m : Merge L u), Silent m (ps.foldl releaseNamed m)
  | [], m => .refl m
  | p :: ps, m => by
    have hone : Silent m (m.releaseNamed p) := by
      unfold releaseNamed
      split
      · exact silent_release m p
      · exact silent_log m ⟨trivial, rfl⟩
    exact hone.trans (silent_releaseNamed ps _)

/-- Nothing of what a transition asks for, short of ending the run, is among the figures. -/
theorem silent_settled (m : Merge L u) (fx : Effects β L.Key) (next : L.State) : Silent m (m.settled fx next) := by
  have hgo : Silent m (m.goOn fx.policy next) := by
    unfold goOn follow
    split
    · exact ⟨rfl, rfl, fun _ => rfl, .of_eq rfl⟩
    · rename_i policy _
      exact ⟨rfl, rfl, fun _ => rfl, extends_note { m with policy } (e := .logged _) ⟨trivial, rfl⟩⟩
  unfold settled emit
  refine hgo.trans ((silent_releaseNamed fx.releases _).trans ?_)
  split
  · exact .refl _
  · rename_i y _
    exact ⟨rfl, rfl, fun _ => rfl, extends_note (e := .emitted y) _ ⟨trivial, rfl⟩⟩

theorem Ends.silent {m m' : Merge L u} {v : Verdict} (h : Ends m m' v) : Silent m m' := by
  cases h with
  | withdrawn rest =>
    exact ⟨rfl, rfl, fun _ => rfl, extends_note { m with link := { m.link with signals := rest } }
      (e := .took .cancel) ⟨trivial, rfl⟩⟩
  | undeliverable => exact ⟨rfl, rfl, fun _ => rfl, .of_eq rfl⟩
  | stuck => exact silent_log m ⟨trivial, rfl⟩
  | _ => exact .refl m

/-! ## Figures -/

/-- The figures of a merge, and those in its records, are the ones that its history gives. -/
structure Reckoned (m : Merge L u) : Prop where
  handled : m.handled = (arrivals m.history).length
  pulls : ∀ (p : InletId) (q : Inlet u), m.inlets[p]? = some q → q.pulls = (brought p m.history).length
  traced : traced m.history = if m.tracing then (arrivals m.history).map fun (p, a) => (p, a.kind) else []
  records : ∀ pre p kind pulls source target post,
    m.history = pre ++ .logged (.transition p kind pulls source target) :: post → pulls = (brought p pre).length

namespace Reckoned

variable {m m' : Merge L u}

theorem of_aside (h : m.Reckoned) (hh : m'.handled = m.handled) (ht : m'.tracing = m.tracing)
    (hp : ∀ p : InletId, m'.inlets[p]?.map (·.pulls) = m.inlets[p]?.map (·.pulls))
    (hx : Extends Entry.isAside m m') : m'.Reckoned := by
  have harrivals : arrivals m'.history = arrivals m.history := hx.filterMap_eq fun _ => Entry.arrived?_of_isAside
  have htraced : StreamMerge.traced m'.history = StreamMerge.traced m.history :=
    hx.filterMap_eq fun _ => Entry.traced?_of_isAside
  refine ⟨by rw [hh, harrivals, h.handled], fun p q hq => ?_, by rw [htraced, harrivals, ht, h.traced],
    fun pre p kind pulls source target post hsplit => ?_⟩
  · have hbrought : brought p m'.history = brought p m.history :=
      hx.filterMap_eq fun _ he => Entry.brought?_of_isAside he p
    have hpulls := hp p
    rw [hq, Option.map_some] at hpulls
    obtain ⟨q₀, hq₀, heq⟩ := Option.map_eq_some_iff.1 hpulls.symm
    rw [hbrought, ← heq, h.pulls p q₀ hq₀]
  · obtain ⟨es, hes, hok⟩ := hx
    rw [hes] at hsplit
    rcases split_append hsplit with ⟨zs, hpre, -⟩ | ⟨zs, -, hnew⟩
    · exact h.records pre p kind pulls source target zs hpre
    · cases hok (.logged (.transition p kind pulls source target)) (by rw [hnew]; simp)

theorem silent (h : m.Reckoned) (hs : Silent m m') : m'.Reckoned :=
  h.of_aside hs.handled hs.tracing hs.pulls (hs.history.mono fun _ he => he.1)

theorem fill (h : m.Reckoned) (p : InletId) : (m.fill p).Reckoned := by
  rcases fill_cases m p with hf | ⟨q, s, hf⟩
  · rwa [hf]
  · have hcore := (frame_fill m p).core
    have hcalls : ∀ {γ : Type} (f : Entry L → Option γ), f (.called p) = none →
        (List.replicate (u.poll s).cancels (Entry.called p : Entry L)).filterMap f = [] :=
      fun f hnone => List.filterMap_replicate_of_none hnone
    have harrivals : arrivals (m.fill p).history = arrivals m.history := by
      unfold arrivals
      rw [hf.history, List.filterMap_append, List.filterMap_append, hcalls _ rfl]
      exact List.append_nil _
    have htraced : StreamMerge.traced (m.fill p).history = StreamMerge.traced m.history := by
      unfold StreamMerge.traced
      rw [hf.history, List.filterMap_append, List.filterMap_append, hcalls _ rfl]
      exact List.append_nil _
    have hbrought : ∀ k, brought k (m.fill p).history =
        brought k m.history ++ (if p = k then Arrival.ofReply? (u.poll s).reply else none).toList := by
      intro k
      unfold brought
      rw [hf.history, List.filterMap_append, List.filterMap_append, hcalls _ rfl, List.nil_append,
        filterMap_singleton]
      rfl
    refine ⟨?_, fun k q' hq' => ?_, ?_, fun pre k kind pulls source target post hsplit => ?_⟩
    · rw [harrivals, ← h.handled]
      exact congrArg Core.handled hcore
    · rw [hf.inlets, List.getElem?_set] at hq'
      rw [hbrought, List.length_append]
      split at hq'
      · rename_i hpk
        rw [if_pos (List.getElem?_eq_some_iff.1 hf.here).1] at hq'
        rw [← Option.some.inj hq', if_pos hpk, Inlet.pulls_store, h.pulls p q hf.here, hpk]
      · rename_i hpk
        rw [if_neg hpk, h.pulls k q' hq']
        rfl
    · rw [htraced, harrivals, show (m.fill p).tracing = m.tracing from congrArg Core.tracing hcore, h.traced]
    · rw [hf.history] at hsplit
      rcases split_append hsplit with ⟨zs, hpre, -⟩ | ⟨zs, -, hnew⟩
      · exact h.records pre k kind pulls source target zs hpre
      · have hmem : .logged (.transition k kind pulls source target) ∈
            List.replicate (u.poll s).cancels (Entry.called p : Entry L) ++ [.polled p (u.poll s).reply] := by
          rw [hnew]
          simp
        simp at hmem

theorem seek (h : m.Reckoned) (order : List InletId) : (m.seek order).2.Reckoned :=
  seek_induction (motive := Reckoned) (fun _ p h => h.fill p) m order h

end Reckoned

/-- Taking up an event of `p` counts it, and traces it if that is asked for. -/
structure Counts (m : Merge L u) (choice : Choice) (p : InletId) (a : Arrival α) (q : Inlet u) (m' : Merge L u) :
    Prop where
  handled : m'.handled = m.handled + 1
  tracing : m'.tracing = m.tracing
  inlets : m'.inlets = m.inlets
  history : m'.history = m.history ++ .arrived choice p a ::
    ((m.handling p a (m.transition p a).next).toList ++
      if m.tracing then [.logged (.transition p a.kind q.pulls (L.showState m.state)
        (L.showState (m.transition p a).next))] else [])

theorem counts_accept (m : Merge L u) (choice : Choice) {p : InletId} (a : Arrival α) {q : Inlet u}
    (hq : m.inlets[p]? = some q) : Counts m choice p a q (m.accept choice p a) := by
  unfold accept trace
  dsimp only
  rw [noteAll_eq]
  dsimp only
  split
  · rename_i ht
    refine ⟨rfl, rfl, rfl, ?_⟩
    rw [history_log, if_pos ht, hq]
    simp [history]
  · rename_i ht
    refine ⟨rfl, rfl, rfl, ?_⟩
    rw [if_neg ht]
    simp [history]

/-- What a list made of the history gains when an event is taken up, if it has nothing of calls. -/
theorem Counts.filterMap_history {γ : Type} {m m' : Merge L u} {choice : Choice} {p : InletId} {a : Arrival α}
    {q : Inlet u} (hc : Counts m choice p a q m') (f : Entry L → Option γ) (hf : ∀ e, e.isAside → f e = none) :
    m'.history.filterMap f = m.history.filterMap f ++ ((f (.arrived choice p a)).toList ++
      if m.tracing then (f (.logged (.transition p a.kind q.pulls (L.showState m.state)
        (L.showState (m.transition p a).next)))).toList else []) := by
  have hcalls : (m.handling p a (m.transition p a).next).toList.filterMap f = [] :=
    List.filterMap_eq_nil_iff.2 fun e he => hf e (Entry.isQuiet_of_isCall (isCall_handling he)).1
  rw [hc.history, List.filterMap_append, ← List.singleton_append, List.filterMap_append, filterMap_singleton,
    List.filterMap_append, hcalls, List.nil_append]
  split
  · rw [filterMap_singleton]
  · rfl

namespace Reckoned

variable {m m' : Merge L u} {choice : Choice} {p : InletId} {a : Arrival α} {q : Inlet u}

/-- The record of an event that is taken up says how many signals its source has yielded. -/
theorem counts_records (h : m.Reckoned) (hq : m.inlets[p]? = some q) (hc : Counts m choice p a q m') :
    ∀ pre k kind pulls source target post,
      m'.history = pre ++ .logged (.transition k kind pulls source target) :: post → pulls = (brought k pre).length := by
  intro pre k kind pulls source target post hsplit
  have hcalls : ∀ e ∈ (m.handling p a (m.transition p a).next).toList, e.isAside :=
    fun e he => (Entry.isQuiet_of_isCall (isCall_handling he)).1
  rw [hc.history] at hsplit
  rcases split_append hsplit with ⟨zs, hpre, -⟩ | ⟨zs, rfl, hnew⟩
  · exact h.records pre k kind pulls source target zs hpre
  split at hnew
  · -- The new record is the only one, and nothing was polled since the event was taken up.
    have hnew : (.arrived choice p a :: (m.handling p a (m.transition p a).next).toList : List (Entry L)) ++
        [.logged (.transition p a.kind q.pulls (L.showState m.state) (L.showState (m.transition p a).next))] =
        zs ++ .logged (.transition k kind pulls source target) :: post := hnew
    have hunique := split_unique (P := fun e : Entry L => e.traced? ≠ none) hnew.symm (Option.some_ne_none _)
      (fun e he => ?_) (fun e he => by cases he)
    · obtain ⟨rfl, heq, -⟩ := hunique
      cases heq
      have hbrought : (m.handling p a (m.transition p a).next).toList.filterMap (·.brought? p) = [] :=
        List.filterMap_eq_nil_iff.2 fun e he => Entry.brought?_of_isAside (hcalls e he) p
      rw [h.pulls p q hq, brought, brought, List.filterMap_append, List.filterMap_cons_none rfl, hbrought,
        List.append_nil]
    · rcases List.mem_cons.1 he with rfl | he
      · exact not_not_intro rfl
      · exact not_not_intro (Entry.traced?_of_isAside (hcalls e he))
  · have hmem : .logged (.transition k kind pulls source target) ∈
        (.arrived choice p a :: ((m.handling p a (m.transition p a).next).toList ++ []) : List (Entry L)) := by
      rw [hnew]
      simp
    rw [List.append_nil, List.mem_cons] at hmem
    rcases hmem with hmem | hmem
    · cases hmem
    · cases hcalls _ hmem

theorem counts (h : m.Reckoned) (hq : m.inlets[p]? = some q) (hc : Counts m choice p a q m') : m'.Reckoned := by
  have harrivals : arrivals m'.history = arrivals m.history ++ [(p, a)] := by
    rw [arrivals, hc.filterMap_history _ fun _ => Entry.arrived?_of_isAside]
    split <;> rfl
  have htraced : StreamMerge.traced m'.history =
      StreamMerge.traced m.history ++ if m.tracing then [(p, a.kind)] else [] := by
    rw [StreamMerge.traced, hc.filterMap_history _ fun _ => Entry.traced?_of_isAside]
    split <;> rfl
  have hbrought : ∀ k, brought k m'.history = brought k m.history := by
    intro k
    rw [brought, hc.filterMap_history _ fun _ he => Entry.brought?_of_isAside he k]
    split <;> exact List.append_nil _
  refine ⟨?_, fun k q' hq' => ?_, ?_, h.counts_records hq hc⟩
  · rw [hc.handled, harrivals, h.handled, List.length_append]
    rfl
  · rw [hc.inlets] at hq'
    rw [hbrought, h.pulls k q' hq']
  · rw [htraced, harrivals, hc.tracing, h.traced]
    split <;> simp

end Reckoned

/-! ## The end of a run -/

theorem lastRecords_of_extends {m m' : Merge L u} (h : Extends (fun e => e.lastRecord? = none) m m') :
    lastRecords m'.history = lastRecords m.history :=
  h.filterMap_eq fun _ he => he

theorem Silent.lastRecords_eq {m m' : Merge L u} (h : Silent m m') : lastRecords m'.history = lastRecords m.history :=
  lastRecords_of_extends (h.history.mono fun _ he => he.2)

/-- What is said at the end of a run holds its last record. -/
theorem announced (m : Merge L u) (n : Nat) (v : Verdict) :
    ∃ said, (m.announce n v).history = m.history ++ said ∧ (∀ e ∈ said, e.isNotice ∧ e.isAside) ∧
      lastRecords said = [lastRecord m.handled n m.credit.remaining v] := by
  have hlog : ∀ r : Record, r.isLast = true → (.logged r : Entry L).isNotice ∧ (.logged r : Entry L).isAside := by
    intro r hr
    cases r <;> first | exact ⟨trivial, trivial⟩ | cases hr
  have hdeliver : ∀ d : Delivery β, d.isTerminal = true → ∀ e ∈ (if m.link.receiving then [.delivered d] else [] :
      List (Entry L)), e.isNotice ∧ e.isAside := by
    intro d hd e he
    split at he
    · rw [List.mem_singleton.1 he]
      exact ⟨hd, trivial⟩
    · cases he
  have hsilent : ∀ d : Delivery β, lastRecords (if m.link.receiving then [.delivered d] else [] : List (Entry L)) =
      [] := by
    intro d
    split <;> rfl
  unfold announce
  cases v with
  | ok outcome =>
    cases outcome with
    | completed =>
      refine ⟨(if m.link.receiving then [.delivered .complete] else []) ++ [.logged (.completed m.handled n)], ?_,
        fun e he => ?_, ?_⟩
      · rw [history_log, history_deliver, List.append_assoc]
      · rcases List.mem_append.1 he with he | he
        · exact hdeliver _ rfl e he
        · exact List.mem_singleton.1 he ▸ hlog _ rfl
      · rw [lastRecords, List.filterMap_append, ← lastRecords, hsilent]
        rfl
    | cancelled =>
      exact ⟨_, history_log _ _, fun e he => List.mem_singleton.1 he ▸ hlog _ rfl, rfl⟩
  | error err =>
    refine ⟨.logged (.failed err m.handled n) :: if m.link.receiving then [.delivered (.error err)] else [], ?_,
      fun e he => ?_, ?_⟩
    · rw [history_deliver, history_log, List.append_assoc]
      rfl
    · rcases List.mem_cons.1 he with rfl | he
      · exact hlog _ rfl
      · exact hdeliver _ rfl e he
    · show .failed err m.handled n :: lastRecords _ = _
      rw [hsilent]
      rfl

/-- The inlets that are open, in order. -/
def openIds (m : Merge L u) : List InletId := m.inletIds.filter (m.inletIs · (·.isOpen))

/-- When the run of `m₁` ended with the verdict `v`, the source of every inlet that was open was given up, and one
record was written of it, which has its figures from the history and the credit of `m`. -/
structure Concluded (m₁ : Merge L u) (v : Verdict) (m : Merge L u) : Prop where
  history : ∃ said, m.history = m₁.history ++ m₁.openIds.map .dropped ++ said ∧ ∀ e ∈ said, e.isNotice
  records : lastRecords m.history =
    [lastRecord (arrivals m.history).length m₁.openIds.length m.credit.remaining v]

/-- Of inlets that are sound, those that are open have a source. -/
theorem Balanced.inletIs_source {m : Merge L u} (h : m.Balanced) (p : InletId) :
    m.inletIs p (·.source.isSome) = m.inletIs p (·.isOpen) := by
  unfold inletIs
  cases hq : m.inlets[p]? with
  | none => rfl
  | some q => exact (h p q hq).sound.source_isSome

theorem Balanced.withSource_eq {m : Merge L u} (h : m.Balanced) : m.withSource = m.openIds :=
  List.filter_congr fun p _ => h.inletIs_source p

/-- The numbers of the inlets that pass a test are as many as the inlets that pass it. -/
theorem length_filter_range (test : Inlet u → Bool) : ∀ qs : List (Inlet u),
    ((List.range qs.length).filter fun p => qs[p]?.any test).length = qs.countP test
  | [] => rfl
  | q :: qs => by
    have htail : ((List.range qs.length).filter ((fun p => (q :: qs)[p]?.any test) ∘ Nat.succ)).length =
        qs.countP test := length_filter_range test qs
    rw [List.length_cons, List.range_succ_eq_map, List.filter_cons, List.filter_map, List.countP_cons]
    by_cases hq : test q = true
    · simp [hq, htail]
    · simp [hq, htail]

theorem countP_source (m : Merge L u) : m.inlets.countP (·.source.isSome) = m.withSource.length :=
  (length_filter_range (·.source.isSome) m.inlets).symm

theorem concluded_finish {m : Merge L u} (hr : m.Reckoned) (hb : m.Balanced) (hn : lastRecords m.history = [])
    (v : Verdict) : Concluded m v (m.finish v) := by
  obtain ⟨said, hsaid, hnotice, hrecord⟩ := announced m.releaseAll (m.inlets.countP (·.source.isSome)) v
  have hcore := (frame_releaseAll m).core
  have hs := silent_releaseAll m
  have hh : (m.finish v).history = m.releaseAll.history ++ said := by
    rw [← hsaid, finish_eq]
    rfl
  have hquiet : arrivals said = [] :=
    List.filterMap_eq_nil_iff.2 fun e he => Entry.arrived?_of_isAside (hnotice e he).2
  have harrivals : arrivals (m.finish v).history = arrivals m.history := by
    unfold arrivals
    rw [hh, List.filterMap_append, ← arrivals, ← arrivals, ← arrivals, hquiet, List.append_nil]
    exact hs.history.filterMap_eq fun _ he => Entry.arrived?_of_isAside he.1
  refine ⟨⟨said, by rw [hh, history_releaseAll, hb.withSource_eq], fun e he => (hnotice e he).1⟩, ?_⟩
  have hlast : lastRecords (m.finish v).history = lastRecords said := by
    unfold lastRecords
    rw [hh, List.filterMap_append, ← lastRecords, hs.lastRecords_eq, hn]
    rfl
  rw [hlast, hrecord, harrivals, ← hr.handled, countP_source, hb.withSource_eq, credit_of_core (finish_spec m v).core,
    credit_of_core hcore]
  exact congrArg (fun n => [lastRecord n _ _ v]) (congrArg Core.handled hcore)

theorem Reckoned.finish {m : Merge L u} (h : m.Reckoned) (v : Verdict) : (m.finish v).Reckoned := by
  obtain ⟨said, hsaid, hnotice, -⟩ := announced m.releaseAll (m.inlets.countP (·.source.isSome)) v
  have hs := silent_releaseAll m
  have hcore := core_announce m.releaseAll (m.inlets.countP (·.source.isSome)) v
  rw [finish_eq]
  exact (h.silent hs).of_aside (congrArg Core.handled hcore) (congrArg Core.tracing hcore)
    (fun p => congrArg (fun qs : List (Inlet u) => qs[p]?.map (·.pulls)) (inlets_announce _ _ v))
    ⟨said, hsaid, fun e he => (hnotice e he).2⟩

/-! ## Steps and changes -/

/-- What the log of `m'` says is true, and goes on from that of `m` without an end of the run. -/
structure Reckons (m m' : Merge L u) : Prop where
  figures : m'.Reckoned
  tracing : m'.tracing = m.tracing
  records : lastRecords m'.history = lastRecords m.history

theorem Reckons.of_silent {m m' : Merge L u} (hr : m.Reckoned) (hs : Silent m m') : Reckons m m' :=
  ⟨hr.silent hs, hs.tracing, hs.lastRecords_eq⟩

theorem Reckons.silent {m m' m'' : Merge L u} (h : Reckons m m') (hs : Silent m' m'') : Reckons m m'' :=
  ⟨h.figures.silent hs, hs.tracing.trans h.tracing, hs.lastRecords_eq.trans h.records⟩

theorem Reckoned.reckons_seek {m : Merge L u} (h : m.Reckoned) (order : List InletId) : Reckons m (m.seek order).2 :=
  ⟨h.seek order, congrArg Core.tracing (frame_seek m order).core,
    lastRecords_of_extends ((extends_seek m order).mono fun _ => Entry.lastRecord?_of_isReading)⟩

/-- Taking and handling an event that was found goes on from there, up to the point where the run may end. -/
theorem Reckons.dispatch {m m' : Merge L u} (h : Reckons m m') (choice : Choice) {p : InletId} {q : Inlet u}
    {a : Arrival α} (hq : m'.inlets[p]? = some q) (ha : q.buffer = some a) : ∃ m₁ closing,
    (m'.putInlet p q.take.2).dispatch choice p a = m₁.close closing ∧ Reckons m m₁ ∧ Works m' m₁ := by
  have hput := h.silent (silent_putInlet hq q.pulls_take)
  have hhere : (m'.putInlet p q.take.2).inlets[p]? = some q.take.2 := by
    rw [inlets_putInlet, List.getElem?_set_self (List.getElem?_eq_some_iff.1 hq).1]
  have hc := counts_accept (m'.putInlet p q.take.2) choice a hhere
  have hw := works_take m' choice hq ha
  have hx : Extends (fun e => e.lastRecord? = none) (m'.putInlet p q.take.2)
      ((m'.putInlet p q.take.2).accept choice p a) := by
    refine ⟨_, hc.history, fun e he => ?_⟩
    rcases List.mem_cons.1 he with rfl | he
    · rfl
    · rcases List.mem_append.1 he with he | he
      · exact (Entry.isQuiet_of_isCall (isCall_handling he)).2
      · split at he
        · rw [List.mem_singleton.1 he]
          rfl
        · cases he
  have hr : Reckons m ((m'.putInlet p q.take.2).accept choice p a) :=
    ⟨hput.figures.counts hhere hc, hc.tracing.trans hput.tracing, (lastRecords_of_extends hx).trans hput.records⟩
  rw [dispatch_eq, apply_eq]
  split
  · exact ⟨_, some (.fail (.protocol .emittedTwice)), rfl, hr.silent (silent_log _ ⟨trivial, rfl⟩),
      hw.trans (.of_eq rfl (extends_log _ _))⟩
  · exact ⟨_, _, rfl, hr.silent (silent_settled _ _ _), hw.trans (works_settled _ _ _)⟩

/-- A step goes on with a log that is true, or ends the run of such a merge. -/
theorem Step.reckons {m m' : Merge L u} (h : Step m m') (hf : m.stage.isFinal = false) (hr : m.Reckoned)
    (hb : m.Balanced) : m'.verdict? = none ∧ Reckons m m' ∨
      ∃ (m₁ : Merge L u) (v : Verdict), m' = m₁.finish v ∧ Reckons m m₁ ∧ m₁.Balanced := by
  cases h with
  | opens =>
    exact Or.inl ⟨rfl, .of_silent hr ⟨rfl, rfl, fun _ => rfl,
      extends_opening Entry.isQuiet m ⟨trivial, rfl⟩ ⟨trivial, rfl⟩⟩⟩
  | turns stage ht =>
    exact Or.inl ⟨verdict?_of_isFinal ht.isFinal_next, .of_silent hr ⟨rfl, rfl, fun _ => rfl, .of_eq rfl⟩⟩
  | starves => exact Or.inl ⟨verdict?_of_isFinal hf, .of_silent hr ⟨rfl, rfl, fun _ => rfl, .of_eq rfl⟩⟩
  | hears n =>
    exact Or.inl ⟨verdict?_of_isFinal hf, .of_silent hr ⟨rfl, rfl, fun _ => rfl,
      extends_note _ (e := .took (.request n)) ⟨trivial, rfl⟩⟩⟩
  | delivers closing y _ _ _ hreceiving =>
    have hd := delivered_spec closing y hreceiving
    exact Or.inl ⟨rfl, .of_silent hr ⟨congrArg Core.handled hd.core, congrArg Core.tracing hd.core,
      fun _ => by rw [hd.inlets], hd.extends_of _ ⟨trivial, rfl⟩⟩⟩
  | tries m' _ _ ht =>
    cases ht with
    | waits choice order =>
      have hstage : (m.seek order).2.stage.isFinal = false := by rw [(frame_seek m order).stage, hf]
      exact Or.inl ⟨verdict?_of_isFinal hstage,
        (hr.reckons_seek order).silent ⟨rfl, rfl, fun _ => rfl, .of_eq rfl⟩⟩
    | accepts choice order p a q _ _ hq ha =>
      obtain ⟨m₁, closing, heq, hr₁, hw⟩ := (hr.reckons_seek order).dispatch choice hq ha
      rw [heq]
      unfold close
      split
      · exact Or.inl ⟨rfl, hr₁.silent ⟨rfl, rfl, fun _ => rfl, .of_eq rfl⟩⟩
      · exact Or.inl ⟨rfl, hr₁.silent ⟨rfl, rfl, fun _ => rfl, .of_eq rfl⟩⟩
      · exact Or.inr ⟨m₁, _, rfl, hr₁, (hb.acts (works_seek m order).acts).acts hw.acts⟩
  | ends m₁ v h =>
    exact Or.inr ⟨m₁, v, rfl, .of_silent hr h.silent, hb.acts (Works.acts (.of_eq h.inlets h.extends))⟩
  | rests hfinal =>
    rw [hf] at hfinal
    cases hfinal

/-- The log of `m`, which began as `origin`, tells the truth. -/
structure Told (origin m : Merge L u) : Prop where
  reached : Changes origin m
  tracing : m.tracing = origin.tracing
  figures : m.Reckoned
  running : m.verdict? = none → lastRecords m.history = []
  concluded : ∀ v, m.verdict? = some v →
    ∃ last m₁, Changes origin last ∧ last.step = m₁.finish v ∧ Concluded m₁ v m

theorem Concluded.of_eq {m₁ m m' : Merge L u} {v : Verdict} (h : Concluded m₁ v m) (hh : m'.history = m.history)
    (hc : m'.credit = m.credit) : Concluded m₁ v m' :=
  ⟨by rw [hh]; exact h.history, by rw [hh, hc]; exact h.records⟩

/-- Changes from outside leave the log alone. -/
theorem Told.of_eq {origin m m' : Merge L u} (h : Told origin m) (hr : Changes origin m') (hc : m'.core = m.core)
    (hs : m'.stage = m.stage) (hp : ∀ p : InletId, m'.inlets[p]?.map (·.pulls) = m.inlets[p]?.map (·.pulls))
    (hh : m'.history = m.history) : Told origin m' := by
  have hv : m'.verdict? = m.verdict? := by
    unfold verdict?
    rw [hs]
  refine ⟨hr, (congrArg Core.tracing hc).trans h.tracing,
    h.figures.of_aside (congrArg Core.handled hc) (congrArg Core.tracing hc) hp (.of_eq hh), fun hn => ?_,
    fun v hv' => ?_⟩
  · rw [hh]
    exact h.running (hv ▸ hn)
  · obtain ⟨last, m₁, hlast, hstep, hcon⟩ := h.concluded v (hv ▸ hv')
    exact ⟨last, m₁, hlast, hstep, hcon.of_eq hh (credit_of_core hc)⟩

theorem Change.told {origin m m' : Merge L u} (h : Change m m') (ht : Told origin m) (hb : m.Balanced) :
    Told origin m' := by
  have hreached := ht.reached.tail h
  cases h with
  | step =>
    cases hf : m.stage.isFinal with
    | true => rwa [step_of_isFinal hf]
    | false =>
      have hnone := ht.running (verdict?_of_isFinal hf)
      rcases (step_spec m).reckons hf ht.figures hb with ⟨hv, hr⟩ | ⟨m₁, v, heq, hr₁, hb₁⟩
      · exact ⟨hreached, hr.tracing.trans ht.tracing, hr.figures, fun _ => hr.records.trans hnone,
          fun v hv' => by rw [hv] at hv'; cases hv'⟩
      · rw [heq] at hreached ⊢
        have hspec := finish_spec m₁ v
        have hv : (m₁.finish v).verdict? = some v := by
          unfold verdict?
          rw [hspec.stage]
        refine ⟨hreached, (congrArg Core.tracing hspec.core).trans (hr₁.tracing.trans ht.tracing), hr₁.figures.finish v,
          (fun hn => by rw [hv] at hn; cases hn), fun v' hv' => ?_⟩
        obtain rfl := Option.some.inj (hv.symm.trans hv')
        exact ⟨m, m₁, ht.reached, heq, concluded_finish hr₁.figures hb₁ (hr₁.records.trans hnone) v⟩
  | rouse => exact ht.of_eq hreached rfl rfl (fun _ => rfl) rfl
  | relink => exact ht.of_eq hreached rfl rfl (fun _ => rfl) rfl
  | adjust p q s s' hq hs =>
    refine ht.of_eq hreached rfl rfl (fun k => ?_) rfl
    rw [List.getElem?_set]
    split
    · rename_i hpk
      subst hpk
      rw [if_pos (List.getElem?_eq_some_iff.1 hq).1, hq]
      rfl
    · rfl
  | abandon hf =>
    have hs := silent_releaseAll m
    exact ⟨hreached, hs.tracing.trans ht.tracing, (ht.figures.silent hs).silent ⟨rfl, rfl, fun _ => rfl, .of_eq rfl⟩,
      fun _ => hs.lastRecords_eq.trans (ht.running (verdict?_of_isFinal hf)), fun v hv => by cases hv⟩

theorem Fresh.reckoned {m : Merge L u} {sources : List u.State} (h : Fresh m sources) (hh : m.handled = 0) :
    m.Reckoned := by
  refine ⟨by rw [hh, h.history]; rfl, fun p q hq => ?_, by rw [h.history]; split <;> rfl,
    fun pre p kind pulls source target post hsplit => ?_⟩
  · rw [h.inlets, List.getElem?_map] at hq
    obtain ⟨s, -, rfl⟩ := Option.map_eq_some_iff.1 hq
    rw [h.history]
    rfl
  · rw [h.history] at hsplit
    exact absurd (congrArg List.length hsplit) (by simp)

theorem play_told {settings : Settings} {sources : List u.State} {m : Merge L u}
    (hm : setUp L u settings sources = .ok m) (moves : List (Move u)) :
    Told m ((Session.start m).play moves).merge := by
  have hfresh := setUp_fresh hm
  have hhandled : m.handled = 0 := by
    unfold setUp at hm
    split at hm
    · cases hm
    · cases hm
      rfl
  have hstart : Told m m :=
    ⟨.refl, rfl, hfresh.reckoned hhandled, fun _ => by rw [hfresh.history]; rfl,
      fun v hv => by rw [verdict?_of_isFinal (by rw [hfresh.stage]; rfl)] at hv; cases hv⟩
  exact play_invariant hm hstart (fun h hb _ ht => h.told ht hb) moves

end Merge

namespace Session

/-- The log of a session of the merge `origin` tells the truth. -/
structure Recorded (origin : Merge L u) (s : Session L u) : Prop where
  /-- A record of an event counts the signals that the source of the inlet has yielded by then. -/
  pulls : ∀ pre p kind pulls source target post,
    s.merge.history = pre ++ .logged (.transition p kind pulls source target) :: post → pulls = (brought p pre).length
  /-- If events are traced, every one is, in order. -/
  traced : traced s.merge.history =
    if origin.tracing then (arrivals s.merge.history).map fun (p, a) => (p, a.kind) else []
  /-- A run that has not come to an end has no last record. -/
  running : s.merge.verdict? = none → lastRecords s.merge.history = []
  /-- A run that has come to an end came to it by a step of the merge, and has one. -/
  concluded : ∀ v, s.merge.verdict? = some v → ∃ last m₁ : Merge L u,
    Merge.Changes origin last ∧ last.step = m₁.finish v ∧ Merge.Concluded m₁ v s.merge
  /-- The credit that is left is what was granted less what was flushed. -/
  credit : s.merge.granted ≤ Credit.limit → s.merge.credit.remaining = s.merge.granted - s.merge.books.flushed

/-- **The log tells the truth.** For every strategy, all sources and every order of moves. -/
theorem play_recorded {settings : Settings} {sources : List u.State} {m : Merge L u}
    (hm : Merge.setUp L u settings sources = .ok m) (moves : List (Move u)) :
    ((start m).play moves).Recorded m := by
  have h := Merge.play_told hm moves
  refine ⟨h.figures.records, ?_, h.running, h.concluded, fun hl => ?_⟩
  · rw [h.figures.traced, h.tracing]
  · have hexact := (Merge.play_solvent hm moves).exact hl
    have hexact : ((start m).play moves).merge.credit.remaining + ((start m).play moves).merge.books.flushed =
        ((start m).play moves).merge.granted := hexact
    omega

/-- Two of three sources have come to their ends when the merge is cancelled: five events were taken up, the source that
is left is given up, and of a credit of five three elements were delivered. -/
theorem play_recorded_fair : ∃ m,
    Merge.setUp (Strategy.fair Nat) (scripted Nat) ⟨none, true⟩
      [.ofList [1, 3], .ofItems [.element 2, .gate], .ofList []] = .ok m ∧
    ((start m).play [.request 5, .poll 60, .cancel, .poll 9]).Recorded m ∧
    lastRecords ((start m).play [.request 5, .poll 60, .cancel, .poll 9]).merge.history = [.cancelled 5 1 2] ∧
    traced ((start m).play [.request 5, .poll 60, .cancel, .poll 9]).merge.history =
      [(0, "element"), (1, "element"), (2, "completed"), (0, "element"), (0, "completed")] := by
  have hm : Merge.setUp (Strategy.fair Nat) (scripted Nat) ⟨none, true⟩
      [.ofList [1, 3], .ofItems [.element 2, .gate], .ofList []] = .ok _ := rfl
  exact ⟨_, hm, play_recorded hm [.request 5, .poll 60, .cancel, .poll 9], rfl, rfl⟩

end Session
end StreamMerge
