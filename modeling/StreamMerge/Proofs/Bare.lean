import StreamMerge.Proofs.Course

/-!
# Runs without waiting

A run that waits for credit goes on, once there is some, where it would have been without having waited.
`Merge.bare` takes from a merge what signals and waiting have left in it, and gives it credit. A step of a merge
that is still wanted leaves its bare form as it is, or is a step of its bare form (`Merge.Wanted.shadows`). So all
runs from one merge, whatever their timing, pass through the states of one bare run, `Merge.bareRun`.
-/
namespace StreamMerge

variable {α β : Type} {L : Strategy α β} {u : Source α}

/-- What a merge does, other than to take a signal. -/
def Entry.isDoing : Entry L → Bool
  | .took _ => false
  | _ => true

/-- The place in the run, whether or not the run waits for credit there. -/
def Stage.bare : Stage → Stage
  | .awaiting aim => .draining aim
  | stage => stage

namespace Merge

/-- All that a merge has done, oldest first, but for the signals that it took: the polls and releases of its
sources, the events taken up and the calls of its strategy, the emissions and deliveries, and the records of its
log. -/
def doings (m : Merge L u) : List (Entry L) := m.history.filter Entry.isDoing

/-- The merge without what signals and waiting have left in it, and with credit. -/
def bare (m : Merge L u) : Merge L u :=
  { m with
    credit := ⟨1⟩
    stage := m.stage.bare
    awake := false
    link := { m.link with signals := [], woken := false }
    journal := m.doings.toArray }

/-! ## Forgetting -/

theorem isFinal_bare (m : Merge L u) : m.bare.stage.isFinal = m.stage.isFinal := by
  show m.stage.bare.isFinal = _
  cases m.stage <;> rfl

@[simp] theorem history_bare (m : Merge L u) : m.bare.history = m.doings := by
  simp [bare, history]

@[simp] theorem doings_bare (m : Merge L u) : m.bare.doings = m.doings := by
  rw [doings, history_bare, doings, List.filter_filter]
  simp

/-- What the signals taken do not tell is in the doings. -/
theorem filterMap_doings {γ : Type} (m : Merge L u) {f : Entry L → Option γ} (hf : ∀ s, f (.took s) = none) :
    m.doings.filterMap f = m.history.filterMap f := by
  rw [doings, List.filterMap_filter]
  refine List.filterMap_congr fun e _ => ?_
  cases e with
  | took s => exact (hf s).symm
  | _ => rfl

@[simp] theorem sent_bare (m : Merge L u) : m.bare.sent = m.sent := by
  unfold sent deliveries
  rw [history_bare, filterMap_doings m fun _ => rfl]

theorem bare_withStage {m m' : Merge L u} (h : m.bare = m'.bare) (stage : Stage) :
    ({ m with stage } : Merge L u).bare = ({ m' with stage } : Merge L u).bare := by
  have hb : ∀ n : Merge L u, ({ n with stage } : Merge L u).bare = { n.bare with stage := stage.bare } := fun _ => rfl
  rw [hb, hb, h]

@[simp] theorem bare_bare (m : Merge L u) : m.bare.bare = m.bare := by
  have hs : m.stage.bare.bare = m.stage.bare := by cases m.stage <;> rfl
  show ({ m.bare with stage := m.stage.bare.bare, journal := m.bare.doings.toArray } : Merge L u) = m.bare
  rw [hs, doings_bare]
  rfl

theorem bare_note (m : Merge L u) {e : Entry L} (h : e.isDoing = true) : (m.note e).bare = m.bare.note e := by
  have hd : (m.note e).doings = m.doings ++ [e] := by simp [doings, h]
  show ({ m.bare with journal := (m.note e).doings.toArray } : Merge L u) = _
  rw [hd, ← List.push_toArray]
  rfl

@[simp] theorem bare_log (m : Merge L u) (r : Record) : (m.log r).bare = m.bare.log r := bare_note m rfl

/-- A request that is taken leaves nothing behind. -/
theorem bare_hears (m : Merge L u) (n : Nat) (rest : List Signal) :
    (({ m with credit := m.credit.grant n, link := { m.link with signals := rest } } : Merge L u).note
      (.took (.request n))).bare = m.bare := by
  have hd : (m.note (.took (.request n))).doings = m.doings := by simp [doings, Entry.isDoing]
  show ({ m.bare with journal := (m.note (.took (.request n))).doings.toArray } : Merge L u) = m.bare
  rw [hd]
  rfl

/-- The inlets are no matter of waiting. -/
theorem apart_bare : Apart (bare : Merge L u → Merge L u) := ⟨fun _ => rfl, fun _ _ => rfl, fun m _ => bare_note m rfl⟩

@[simp] theorem bare_deliver (m : Merge L u) (d : Delivery β) : (m.deliver d).bare = m.bare.deliver d := by
  have hd : m.bare.link.deliver d = { m.link.deliver d with signals := [], woken := false } := by
    unfold Link.deliver
    show (if m.link.receiving then _ else _) = _
    split <;> rfl
  have hr : m.bare.link.receiving = m.link.receiving := rfl
  unfold deliver
  dsimp only
  rw [hd, hr]
  split
  · exact bare_note _ rfl
  · rfl

theorem bare_announce (m : Merge L u) (n : Nat) {v : Verdict} (hv : v ≠ .ok .cancelled) :
    (m.announce n v).bare = m.bare.announce n v := by
  unfold announce
  split
  · rw [bare_log, bare_deliver]
    rfl
  · exact absurd rfl hv
  · rw [bare_deliver, bare_log]
    rfl

/-- The end of a run carries over to the bare merge, unless a record of the credit left is made. -/
theorem bare_finish (m : Merge L u) {v : Verdict} (hv : v ≠ .ok .cancelled) :
    (m.finish v).bare = m.bare.finish v := by
  rw [finish_eq, finish_eq, ← apart_bare.releaseAll, show m.bare.inlets = m.inlets from rfl, ← bare_announce _ _ hv]
  rfl

/-! ## Reading -/

/-- Merges with one bare form are alike in what they have read and know. -/
theorem inlets_eq_of_bare {m m' : Merge L u} (h : m.bare = m'.bare) : m.inlets = m'.inlets := by
  show m.bare.inlets = m'.bare.inlets
  rw [h]

theorem bare_call (p : InletId) : ∀ (n : Nat) {m m' : Merge L u}, m.bare = m'.bare →
    (m.call p n).bare = (m'.call p n).bare
  | 0, _, _, h => h
  | n + 1, m, m', h => by
    have hs : ∀ m : Merge L u, ({ m with link := m.link.send .cancel } : Merge L u).bare = m.bare := by
      intro m
      unfold Link.send
      split <;> rfl
    refine bare_call p n ?_
    rw [bare_note _ rfl, bare_note _ rfl, hs, hs, h]

theorem bare_fill {m m' : Merge L u} (h : m.bare = m'.bare) (p : InletId) : (m.fill p).bare = (m'.fill p).bare := by
  unfold fill
  rw [← inlets_eq_of_bare h]
  split
  · exact h
  · split
    · exact h
    · rename_i r q _
      have hset : ({ m with inlets := m.inlets.set p q } : Merge L u).bare =
          ({ m' with inlets := m.inlets.set p q } : Merge L u).bare :=
        congrArg (fun n : Merge L u => { n with inlets := m.inlets.set p q }) h
      have hnote : ((({ m with inlets := m.inlets.set p q } : Merge L u).call p r.cancels).note
          (.polled p r.reply)).bare =
          ((({ m' with inlets := m.inlets.set p q } : Merge L u).call p r.cancels).note (.polled p r.reply)).bare := by
        rw [bare_note _ rfl, bare_note _ rfl, bare_call p r.cancels hset]
      dsimp only
      split
      · exact hnote
      · exact hnote

theorem bare_fillUntil (test : Inlet u → Bool) : ∀ (ps : List InletId) {m m' : Merge L u}, m.bare = m'.bare →
    (fillUntil test ps m).1 = (fillUntil test ps m').1 ∧
    (fillUntil test ps m).2.bare = (fillUntil test ps m').2.bare
  | [], _, _, h => ⟨rfl, h⟩
  | p :: ps, m, m', h => by
    have hf := bare_fill h p
    have hi : (m.fill p).inletIs p test = (m'.fill p).inletIs p test := by
      unfold inletIs
      rw [inlets_eq_of_bare hf]
    unfold fillUntil
    dsimp only
    rw [hi]
    split
    · exact ⟨rfl, hf⟩
    · exact bare_fillUntil test ps hf

theorem bare_seek {m m' : Merge L u} (h : m.bare = m'.bare) (order : List InletId) :
    (m.seek order).1 = (m'.seek order).1 ∧ (m.seek order).2.bare = (m'.seek order).2.bare := by
  have hi : m.inlets = m'.inlets := inlets_eq_of_bare h
  have his : ∀ test : Inlet u → Bool, (m.inletIs · test) = (m'.inletIs · test) := by
    intro test
    unfold inletIs
    rw [hi]
  have hids : m.inletIds = m'.inletIds := by unfold inletIds; rw [hi]
  have hby : m.bystanders order = m'.bystanders order := by
    have := congrFun (his (·.isOpen))
    unfold bystanders
    simp only [hids, this]
  unfold seek
  rw [his, his, hids, hby]
  split
  · exact ⟨rfl, h⟩
  · split
    · exact ⟨rfl, h⟩
    · obtain ⟨h₁, h₂⟩ := bare_fillUntil (·.hasTerminal) (m'.bystanders order) h
      cases hf : fillUntil (·.hasTerminal) (m'.bystanders order) m with
      | mk found n =>
        cases hf' : fillUntil (·.hasTerminal) (m'.bystanders order) m' with
        | mk found' n' =>
          rw [hf, hf'] at h₁ h₂
          obtain rfl : found = found' := h₁
          cases found with
          | some p => exact ⟨rfl, h₂⟩
          | none => exact bare_fillUntil (·.buffer.isSome) order h₂

theorem bare_attempt {m m' : Merge L u} (h : m.bare = m'.bare) (order : List InletId) :
    (m.attempt order).1 = (m'.attempt order).1 ∧ (m.attempt order).2.bare = (m'.attempt order).2.bare := by
  obtain ⟨h₁, h₂⟩ := bare_seek h order
  have hi := inlets_eq_of_bare h₂
  rcases attempt_cases m order with ⟨hn, ha⟩ | ⟨p, a, q, hp, hq, hb, ha⟩
  · rcases attempt_cases m' order with ⟨-, ha'⟩ | ⟨p', a', q', hp', -⟩
    · rw [ha, ha']
      exact ⟨rfl, h₂⟩
    · rw [h₁, hp'] at hn
      cases hn
  · rcases attempt_cases m' order with ⟨hn', -⟩ | ⟨p', a', q', hp', hq', hb', ha'⟩
    · rw [h₁, hn'] at hp
      cases hp
    · obtain rfl := Option.some.inj (hp.symm.trans (h₁.trans hp'))
      rw [hi] at hq
      obtain rfl := Option.some.inj (hq.symm.trans hq')
      obtain rfl := Option.some.inj (hb.symm.trans hb')
      rw [ha, ha', apart_bare.putInlet, apart_bare.putInlet, h₂]
      exact ⟨rfl, rfl⟩

/-! ## Handling -/

theorem bare_releaseNamed (m : Merge L u) (p : InletId) : (m.releaseNamed p).bare = m.bare.releaseNamed p := by
  unfold releaseNamed
  show _ = if p < m.inlets.length then _ else _
  split
  · exact apart_bare.release m p
  · exact bare_log m _

theorem bare_noteAll : ∀ (es : List (Entry L)) (m : Merge L u), (∀ e ∈ es, e.isDoing = true) →
    (m.noteAll es).bare = m.bare.noteAll es
  | [], _, _ => rfl
  | e :: es, m, h => by
    show ((m.note e).noteAll es).bare = (m.bare.note e).noteAll es
    rw [bare_noteAll es _ fun e' he => h e' (List.mem_cons_of_mem e he), bare_note m (h e (by simp))]

theorem bare_trace (m : Merge L u) (p : InletId) (a : Arrival α) (next : L.State) :
    (m.trace p a next).bare = m.bare.trace p a next := by
  unfold trace
  show _ = if m.tracing then _ else _
  split
  · exact bare_log m _
  · rfl

theorem bare_accept (m : Merge L u) (choice : Choice) (p : InletId) (a : Arrival α) :
    (m.accept choice p a).bare = m.bare.accept choice p a := by
  unfold accept
  dsimp only
  rw [bare_trace, bare_noteAll]
  · rfl
  · intro e he
    rcases List.mem_cons.1 he with rfl | he
    · rfl
    · have := isCall_handling he
      cases e <;> first | rfl | cases this

theorem bare_settled (m : Merge L u) (fx : Effects β L.Key) (next : L.State) :
    (m.settled fx next).bare = m.bare.settled fx next := by
  have hgo : (m.goOn fx.policy next).bare = m.bare.goOn fx.policy next := by
    unfold goOn follow
    cases fx.policy with
    | none => rfl
    | some policy => exact congrArg (fun n : Merge L u => { n with state := next }) (bare_log { m with policy } _)
  unfold settled emit
  rw [← hgo, List.foldl_hom bare fun m p => (bare_releaseNamed m p).symm]
  cases fx.emission with
  | none => rfl
  | some y => exact bare_note _ rfl

theorem bare_close (m : Merge L u) (closing : Option Closing) : (m.close closing).bare = m.bare.close closing := by
  unfold close
  split
  · rfl
  · rfl
  · exact bare_finish m (by simp)

theorem bare_dispatch (m : Merge L u) (choice : Choice) (p : InletId) (a : Arrival α) :
    (m.dispatch choice p a).bare = m.bare.dispatch choice p a := by
  have ht : m.bare.transition p a = m.transition p a := rfl
  have hs : (m.accept choice p a).bare.state = (m.accept choice p a).state := rfl
  rw [dispatch_eq, dispatch_eq, ht, ← bare_accept, apply_eq, apply_eq, hs]
  split
  · rw [bare_finish _ (by simp), bare_log]
  · rw [bare_close, bare_settled]

/-! ## Steps -/

/-- Somebody wants what the merge delivers: the consumer receives, it can send signals, and nobody has cancelled. -/
structure Wanted (m : Merge L u) : Prop where
  receiving : m.link.receiving = true
  senders : m.link.senders ≠ 0
  signals : .cancel ∉ m.link.signals

/-- What the bare merge does where there is credit. -/
theorem bare_proceed {m : Merge L u} (hr : m.link.receiving = true) (aim : Aim) :
    (m.proceed aim).bare = (m.bare.proceed aim).bare := by
  cases aim with
  | read =>
    have hc : L.choice m.bare.memory m.bare.state = L.choice m.memory m.state := rfl
    have hn : m.bare.inlets = m.inlets := rfl
    have ho : (L.choice m.memory m.state).readingOrder m.bare.turn (m.bare.inletIs · (·.isOpen)) =
        (L.choice m.memory m.state).readingOrder m.turn (m.inletIs · (·.isOpen)) := rfl
    show m.choose.bare = m.bare.choose.bare
    unfold choose
    dsimp only
    rw [hc, hn, ho]
    split
    · rw [bare_finish _ (by simp), bare_finish _ (by simp), bare_bare]
    · split
      · rw [bare_finish _ (by simp), bare_finish _ (by simp), bare_log, bare_log, bare_bare]
        rfl
      · exact bare_withStage (bare_bare m).symm _
  | deliver closing =>
    have hu : m.bare.unsent = m.unsent := rfl
    show (m.flush closing).bare = (m.bare.flush closing).bare
    unfold flush
    rw [hu]
    split
    · exact bare_withStage (bare_bare m).symm _
    · have hr' : m.bare.link.receiving = true := hr
      dsimp only
      rw [if_pos hr, if_pos hr']
      have hd : ∀ (n : Merge L u) (y : β) (c : Credit),
          ({ Merge.deliver { n with unsent := none, credit := c } (.element y) with
            stage := .settling closing } : Merge L u).bare =
          { Merge.deliver { n.bare with unsent := none } (.element y) with stage := .settling closing } := by
        intro n y c
        have := bare_deliver ({ n with unsent := none, credit := c } : Merge L u) (.element y)
        exact congrArg (fun k : Merge L u => { k with stage := .settling closing }) this
      rw [hd, hd, bare_bare]

/-- Reading where there is no signal. -/
theorem bare_read (m : Merge L u) (choice : Choice) (order : List InletId) :
    (m.read choice order).bare = (m.bare.read choice order).bare := by
  obtain ⟨h₁, h₂⟩ := bare_attempt (bare_bare m).symm order
  unfold read
  cases h : m.attempt order with
  | mk found n =>
    cases h' : m.bare.attempt order with
    | mk found' n' =>
      rw [h, h'] at h₁ h₂
      obtain rfl : found = found' := h₁
      cases found with
      | none => exact h₂
      | some e => rw [bare_dispatch, bare_dispatch, h₂]

/-- Taking signals leaves nothing behind, until there are none. -/
theorem bare_hear {m : Merge L u} (hw : m.Wanted) (quiet : Merge L u → Merge L u) :
    (m.hear quiet).bare = m.bare ∨ m.link.signals = [] ∧ m.hear quiet = quiet m := by
  unfold hear
  split
  · exact Or.inl (bare_hears m _ _)
  · rename_i rest hs
    exact absurd (hs ▸ List.mem_cons_self) hw.signals
  · rename_i hs
    rw [if_neg hw.senders]
    exact Or.inr ⟨hs, rfl⟩

/-- The bare merge has no signal to take. -/
theorem hear_bare {m : Merge L u} (hw : m.Wanted) (quiet : Merge L u → Merge L u) :
    m.bare.hear quiet = quiet m.bare := by
  have hs : m.bare.link.signals = [] := rfl
  have h0 : m.bare.link.senders ≠ 0 := hw.senders
  unfold hear
  rw [hs]
  exact if_neg h0

theorem step_bare_of_draining {m : Merge L u} (hw : m.Wanted) {aim : Aim} (h : m.bare.stage = .draining aim) :
    m.bare.step = m.bare.proceed aim := by
  unfold step
  rw [h]
  exact hear_bare hw _

/-- What a step is to the bare merge: it leaves it as it is, or is a step of it; and it reads on only with credit. -/
inductive Shadows (m : Merge L u) : Prop
  | stays : m.step.bare = m.bare → Shadows m
  | moves : m.stage.isFinal = false → (m.bare.stage = .draining .read → m.credit.isPositive = true) →
      m.step.bare = m.bare.step.bare → Shadows m

theorem Wanted.shadows_draining {m : Merge L u} (hw : m.Wanted) {aim : Aim} (hst : m.stage = .draining aim) :
    Shadows m := by
  have hst' : m.bare.stage = .draining aim := congrArg Stage.bare hst
  have hstep : m.step =
      m.hear fun m => if m.credit.isPositive then m.proceed aim else { m with stage := .awaiting aim } := by
    rw [step, hst]
  rcases bare_hear hw (fun m => if m.credit.isPositive then m.proceed aim else { m with stage := .awaiting aim }) with
    h | ⟨-, h⟩
  · exact .stays (hstep ▸ h)
  · by_cases hc : m.credit.isPositive = true
    · refine .moves (congrArg Stage.isFinal hst) (fun _ => hc) ?_
      rw [hstep, h, if_pos hc, step_bare_of_draining hw hst', bare_proceed hw.receiving]
    · refine .stays ?_
      rw [hstep, h, if_neg hc]
      show ({ m.bare with stage := .draining aim } : Merge L u) = m.bare
      rw [← hst']

/-- Where a run waits for credit, its bare merge has not taken the step for which it is needed. -/
theorem Wanted.shadows_awaiting {m : Merge L u} (hw : m.Wanted) {aim : Aim} (hst : m.stage = .awaiting aim) :
    Shadows m := by
  have hst' : m.bare.stage = .draining aim := congrArg Stage.bare hst
  have hstep : m.step =
      if m.credit.isPositive then m.proceed aim else m.hear fun m => { m with awake := false } := by
    rw [step, hst]
  by_cases hc : m.credit.isPositive = true
  · refine .moves (congrArg Stage.isFinal hst) (fun _ => hc) ?_
    rw [hstep, if_pos hc, step_bare_of_draining hw hst', bare_proceed hw.receiving]
  · refine .stays ?_
    rw [hstep, if_neg hc]
    rcases bare_hear hw (fun m => { m with awake := false }) with h | ⟨-, h⟩
    · exact h
    · rw [h]
      rfl

theorem Wanted.shadows_attempting {m : Merge L u} (hw : m.Wanted) {choice : Choice} {order : List InletId}
    (hst : m.stage = .attempting choice order) : Shadows m := by
  have hst' : m.bare.stage = .attempting choice order := congrArg Stage.bare hst
  have hbare : m.bare.step = m.bare.read choice order := by
    unfold step
    rw [hst']
    exact hear_bare hw _
  have hstep : m.step = m.hear fun m => m.read choice order := by rw [step, hst]
  rcases bare_hear hw (fun m => m.read choice order) with h | ⟨-, h⟩
  · exact .stays (hstep ▸ h)
  · refine .moves (congrArg Stage.isFinal hst) (by rw [hst']; simp) ?_
    rw [hstep, h, hbare, bare_read]

/-- **A step of a merge that is wanted leaves its bare merge as it is, or is a step of it.** -/
theorem Wanted.shadows {m : Merge L u} (hw : m.Wanted) : Shadows m := by
  cases hst : m.stage with
  | unpolled =>
    have hst' : m.bare.stage = .unpolled := congrArg Stage.bare hst
    refine .moves (congrArg Stage.isFinal hst) (by rw [hst']; simp) ?_
    simp only [step, hst, hst']
    refine bare_withStage ?_ _
    rw [bare_log, bare_log, bare_log, bare_log, bare_bare]
    rfl
  | settling closing =>
    have hst' : m.bare.stage = .settling closing := congrArg Stage.bare hst
    refine .moves (congrArg Stage.isFinal hst) (by rw [hst']; simp) ?_
    have hu : m.bare.unsent = m.unsent := rfl
    have ho : m.bare.openInlets = m.openInlets := rfl
    simp only [step, hst, hst', hu, ho]
    split
    · exact bare_withStage (bare_bare m).symm _
    · split
      · rw [bare_finish _ (by simp), bare_finish _ (by simp), bare_bare]
      · exact bare_withStage (bare_bare m).symm _
  | draining aim => exact hw.shadows_draining hst
  | awaiting aim => exact hw.shadows_awaiting hst
  | attempting choice order => exact hw.shadows_attempting hst
  | ended v => exact .stays (by rw [step_of_isFinal (congrArg Stage.isFinal hst)])
  | abandoned => exact .stays (by rw [step_of_isFinal (congrArg Stage.isFinal hst)])

/-! ## The bare run -/

/-- The merge after `k` steps of its bare run. -/
def bareRun (m : Merge L u) : Nat → Merge L u
  | 0 => m.bare
  | k + 1 => (m.bareRun k).step.bare

/-- A bare run only does more and more. -/
theorem doings_bareRun_initial (m : Merge L u) {j k : Nat} (h : j ≤ k) :
    (m.bareRun j).doings <+: (m.bareRun k).doings := by
  induction h with
  | refl => exact List.prefix_refl _
  | step _ ih =>
    rename_i k _
    obtain ⟨es, hes, -⟩ := (step_spec (m.bareRun k)).extends
    refine ih.trans ⟨es.filter Entry.isDoing, ?_⟩
    show _ = (m.bareRun k).step.bare.doings
    rw [doings_bare, doings, doings, hes, List.filter_append]

/-- For `demand` elements a bare run goes no further: it has ended, or it would read on when all of them are
delivered. -/
def Halts (demand : Nat) (m : Merge L u) : Prop :=
  m.stage.isFinal = true ∨ m.stage = .draining .read ∧ demand ≤ m.sent.length

theorem Halts.mono {m : Merge L u} {demand demand' : Nat} (h : m.Halts demand') (hle : demand ≤ demand') :
    m.Halts demand :=
  h.imp_right fun ⟨hst, hd⟩ => ⟨hst, Nat.le_trans hle hd⟩

/-- The merge `m` is where the bare run of `origin` is after `k` steps, and that run does not halt earlier for
`demand` elements. -/
structure Follows (origin : Merge L u) (demand k : Nat) (m : Merge L u) : Prop where
  here : m.bare = origin.bareRun k
  unhalted : ∀ j < k, ¬ (origin.bareRun j).Halts demand

/-- What follows a bare run goes on following it, step by step, if it reads on only for elements that are still to be
delivered. -/
theorem Follows.step {origin m : Merge L u} {demand k : Nat} (h : Follows origin demand k m) (hw : m.Wanted)
    (hd : m.credit.isPositive = true → m.sent.length < demand) : ∃ k', Follows origin demand k' m.step := by
  cases hw.shadows with
  | stays hs => exact ⟨k, hs.trans h.here, h.unhalted⟩
  | moves hf hread hs =>
    refine ⟨k + 1, by rw [hs, h.here]; rfl, fun j hj => ?_⟩
    rcases Nat.lt_succ_iff_lt_or_eq.1 hj with hj | rfl
    · exact h.unhalted j hj
    · rw [← h.here]
      rintro (hfinal | ⟨hst, hle⟩)
      · rw [isFinal_bare, hf] at hfinal
        cases hfinal
      · rw [sent_bare] at hle
        exact absurd (hd (hread hst)) (Nat.not_lt.2 hle)

/-- With more credit the bare run halts later, if at all. -/
theorem Follows.mono {origin m : Merge L u} {demand demand' k : Nat} (h : Follows origin demand k m)
    (hle : demand ≤ demand') : Follows origin demand' k m :=
  ⟨h.here, fun j hj hh => h.unhalted j hj (hh.mono hle)⟩

/-- Of two merges that have followed one bare run until it halted, the one with the smaller demand is not ahead. -/
theorem Follows.le {origin m m' : Merge L u} {demand demand' k k' : Nat} (h : Follows origin demand k m)
    (h' : Follows origin demand' k' m') (hle : demand ≤ demand') (halts : m'.bare.Halts demand') : k ≤ k' := by
  refine Nat.le_of_not_lt fun hlt => h.unhalted k' hlt ?_
  rw [← h'.here]
  exact halts.mono hle

end Merge
end StreamMerge
