import StreamMerge.Proofs.Attempt

/-!
# What a step does

`Step` lists everything that one step of a run can do, with what has to be the case for it; `step_spec` says
that a step does nothing else. Later proofs take a step apart by the cases of `Step` and never unfold it. The
end of a run (`finish`) and the handling of an event (`dispatch`) are described by their parts.
-/
namespace StreamMerge.Merge

variable {α β : Type} {L : Strategy α β} {u : Source α}

/-! ## Cases -/

/-- The run is where it does `aim` if there is credit: it has taken all signals, or waits for the credit. -/
def Aims (m : Merge L u) (aim : Aim) : Prop :=
  m.stage = .draining aim ∧ m.link.signals = [] ∧ m.link.senders ≠ 0 ∨ m.stage = .awaiting aim

/-- A step to another stage that does nothing else. -/
inductive Turns (m : Merge L u) : Stage → Prop
  | deliver (closing : Bool) : m.stage = .settling closing → m.unsent.isSome = true →
      Turns m (.draining (.deliver closing))
  | read : m.stage = .settling false → m.unsent = none → m.openInlets ≠ 0 → Turns m (.draining .read)
  | await (aim : Aim) : m.stage = .draining aim → m.link.signals = [] → m.link.senders ≠ 0 →
      m.credit.isPositive = false → Turns m (.awaiting aim)
  | choose (order : List InletId) : m.Aims .read → m.credit.isPositive = true →
      (L.choice m.memory m.state).check m.inlets.length = none →
      order = (L.choice m.memory m.state).readingOrder m.turn (m.inletIs · (·.isOpen)) → order ≠ [] →
      Turns m (.attempting (L.choice m.memory m.state) order)
  | settle (closing : Bool) : m.Aims (.deliver closing) → m.unsent = none → Turns m (.settling closing)

/-- A step that ends the run of `m` with a verdict, after a last change to `m'`. -/
inductive Ends (m : Merge L u) : Merge L u → Verdict → Prop
  | withdrawn (rest : List Signal) : m.stage.isFinal = false → m.link.signals = .cancel :: rest →
      Ends m ({ m with link := { m.link with signals := rest } }.note (.took .cancel)) (.ok .cancelled)
  | deserted : m.stage.isFinal = false → m.link.signals = [] → m.link.senders = 0 → Ends m m (.ok .cancelled)
  | undeliverable (closing : Bool) (y : β) : m.Aims (.deliver closing) → m.credit.isPositive = true →
      m.unsent = some y → m.link.receiving = false →
      Ends m { m with unsent := none, credit := m.credit.consume } (.ok .cancelled)
  | completed (closing : Bool) : m.stage = .settling closing → m.unsent = none →
      closing = true ∨ m.openInlets = 0 → Ends m m (.ok .completed)
  | refused (violation : Violation) : m.Aims .read → m.credit.isPositive = true →
      (L.choice m.memory m.state).check m.inlets.length = some violation →
      Ends m m (.error (.protocol violation))
  | stuck : m.Aims .read → m.credit.isPositive = true →
      (L.choice m.memory m.state).readingOrder m.turn (m.inletIs · (·.isOpen)) = [] →
      Ends m (m.log (.onlyTerminated (L.showState m.state) m.openInlets))
        (.error (.protocol (.namesOnlyTerminated (L.showState m.state) m.openInlets)))

/-- A step that makes an attempt on the inlets. -/
inductive Tries (m : Merge L u) : Merge L u → Prop
  /-- The attempt finds nothing. -/
  | waits (choice : Choice) (order : List InletId) : m.stage = .attempting choice order →
      (m.seek order).1 = none → Tries m { (m.seek order).2 with awake := false }
  /-- The attempt finds an event, which is handled. -/
  | accepts (choice : Choice) (order : List InletId) (p : InletId) (a : Arrival α) (q : Inlet u) :
      m.stage = .attempting choice order → (m.seek order).1 = some p → (m.seek order).2.inlets[p]? = some q →
      q.buffer = some a → Tries m (((m.seek order).2.putInlet p q.take.2).dispatch choice p a)

/-- Everything that one step of a run can do. -/
inductive Step (m : Merge L u) : Merge L u → Prop
  | opens : m.stage = .unpolled →
      Step m { (m.log (.opened m.name m.inlets.length)).log (.started m.policy.label) with
        stage := .settling false }
  | turns (stage : Stage) : Turns m stage → Step m { m with stage }
  /-- The run waits for credit. -/
  | starves (aim : Aim) : m.stage = .awaiting aim → m.credit.isPositive = false → m.link.signals = [] →
      m.link.senders ≠ 0 → Step m { m with awake := false }
  | hears (n : Nat) (rest : List Signal) : m.stage.isFinal = false → m.link.signals = .request n :: rest →
      Step m ({ m with credit := m.credit.grant n, link := { m.link with signals := rest } }.note
        (.took (.request n)))
  | delivers (closing : Bool) (y : β) : m.Aims (.deliver closing) → m.credit.isPositive = true →
      m.unsent = some y → m.link.receiving = true →
      Step m { ({ m with unsent := none, credit := m.credit.consume } : Merge L u).deliver (.element y) with
        stage := .settling closing }
  | tries (m' : Merge L u) : m.link.signals = [] → m.link.senders ≠ 0 → Tries m m' → Step m m'
  | ends (m' : Merge L u) (verdict : Verdict) : Ends m m' verdict → Step m (m'.finish verdict)
  | rests : m.stage.isFinal = true → Step m m

theorem Aims.stage {m : Merge L u} {aim : Aim} (h : m.Aims aim) :
    m.stage = .draining aim ∨ m.stage = .awaiting aim := h.imp_left And.left

theorem Aims.isFinal {m : Merge L u} {aim : Aim} (h : m.Aims aim) : m.stage.isFinal = false := by
  rcases h.stage with h | h <;> rw [h] <;> rfl

private theorem choose_step {m : Merge L u} (ha : m.Aims .read) (hc : m.credit.isPositive = true) :
    Step m m.choose := by
  unfold choose
  dsimp only
  split
  · rename_i violation hv
    exact .ends _ _ (.refused violation ha hc hv)
  · rename_i hv
    split
    · rename_i ho
      exact .ends _ _ (.stuck ha hc ho)
    · rename_i p ps ho
      exact .turns _ (.choose (p :: ps) ha hc hv ho.symm (by simp))

private theorem flush_step {m : Merge L u} {closing : Bool} (ha : m.Aims (.deliver closing))
    (hc : m.credit.isPositive = true) : Step m (m.flush closing) := by
  unfold flush
  split
  · rename_i hu
    exact .turns _ (.settle closing ha hu)
  · rename_i y hu
    dsimp only
    split
    · rename_i hr
      exact .delivers closing y ha hc hu hr
    · rename_i hr
      exact .ends _ _ (.undeliverable closing y ha hc hu (by simpa using hr))

private theorem proceed_step {m : Merge L u} {aim : Aim} (ha : m.Aims aim)
    (hc : m.credit.isPositive = true) : Step m (m.proceed aim) := by
  cases aim with
  | read => exact choose_step ha hc
  | deliver closing => exact flush_step ha hc

private theorem hear_step {m : Merge L u} {quiet : Merge L u → Merge L u} (hf : m.stage.isFinal = false)
    (hq : m.link.signals = [] → m.link.senders ≠ 0 → Step m (quiet m)) : Step m (m.hear quiet) := by
  unfold hear
  split
  · rename_i n rest hs
    exact .hears n rest hf hs
  · rename_i rest hs
    exact .ends _ _ (.withdrawn rest hf hs)
  · rename_i hs
    split
    · rename_i h0
      exact .ends _ _ (.deserted hf hs h0)
    · rename_i h0
      exact hq hs h0

/-- **A step does one of the things that `Step` lists.** -/
theorem step_spec (m : Merge L u) : Step m m.step := by
  unfold step
  cases hst : m.stage with
  | unpolled => exact .opens hst
  | settling closing =>
    dsimp only
    split
    · rename_i hu
      exact .turns _ (.deliver closing hst hu)
    · rename_i hu
      have hn : m.unsent = none := by simpa using hu
      split
      · rename_i hc
        exact .ends _ _ (.completed closing hst hn (by simpa using hc))
      · rename_i hc
        simp only [Bool.or_eq_true, decide_eq_true_eq, not_or, Bool.not_eq_true] at hc
        exact .turns _ (.read (hc.1 ▸ hst) hn hc.2)
  | draining aim =>
    refine hear_step (by rw [hst]; rfl) fun hs h0 => ?_
    split
    · rename_i hc
      exact proceed_step (Or.inl ⟨hst, hs, h0⟩) hc
    · rename_i hc
      exact .turns _ (.await aim hst hs h0 (eq_false_of_ne_true hc))
  | awaiting aim =>
    dsimp only
    split
    · rename_i hc
      exact proceed_step (Or.inr hst) hc
    · rename_i hc
      exact hear_step (by rw [hst]; rfl) fun hs h0 => .starves aim hst (eq_false_of_ne_true hc) hs h0
  | attempting choice order =>
    refine hear_step (by rw [hst]; rfl) fun hs h0 => ?_
    unfold read
    refine .tries _ hs h0 ?_
    rcases attempt_cases m order with ⟨hp, h⟩ | ⟨p, a, q, hp, hq, ha, h⟩
    · rw [h]
      exact .waits choice order hst hp
    · rw [h]
      exact .accepts choice order p a q hst hp hq ha
  | ended verdict => exact .rests (by rw [hst]; rfl)
  | abandoned => exact .rests (by rw [hst]; rfl)

theorem step_of_isFinal {m : Merge L u} (h : m.stage.isFinal = true) : m.step = m := by
  unfold step
  cases hst : m.stage <;> first | rfl | (rw [hst] at h; cases h)

theorem advance_succ {m : Merge L u} (ha : m.awake = true) (fuel : Nat) :
    m.advance (fuel + 1) = m.step.advance fuel := by
  rw [Merge.advance, if_pos ha]

theorem advance_of_isFinal {m : Merge L u} (h : m.stage.isFinal = true) : ∀ fuel, m.advance fuel = m
  | 0 => rfl
  | fuel + 1 => by
    unfold advance
    split
    · rw [step_of_isFinal h, advance_of_isFinal h fuel]
    · rfl

theorem advance_of_asleep {m : Merge L u} (h : m.awake = false) : ∀ fuel, m.advance fuel = m
  | 0 => rfl
  | fuel + 1 => by
    unfold advance
    rw [if_neg (by rw [h]; exact Bool.false_ne_true)]

theorem extends_opening (ok : Entry L → Prop) (m : Merge L u) (h : ok (.logged (.opened m.name m.inlets.length)))
    (h' : ok (.logged (.started m.policy.label))) :
    Extends ok m ((m.log (.opened m.name m.inlets.length)).log (.started m.policy.label)) :=
  (extends_note m h).trans (extends_note (m.log (.opened m.name m.inlets.length)) h')

/-! ## Ending -/

/-- What the consumer is told at the end of a run. -/
def farewell : Verdict → Option (Delivery β)
  | .ok .completed => some .complete
  | .ok .cancelled => none
  | .error e => some (.error e)

/-- An entry that neither reading nor a transition writes. -/
def isClosing : Entry L → Prop
  | .dropped _ | .delivered _ | .logged _ => True
  | _ => False

/-- A released inlet, or a record of the log. -/
def isRelease : Entry L → Prop
  | .dropped _ | .logged _ => True
  | _ => False

theorem isClosing_of_isRelease {e : Entry L} (h : isRelease e) : isClosing e := by
  cases e <;> first | exact trivial | exact h

theorem extends_deliver (m : Merge L u) (d : Delivery β) : Extends isClosing m (m.deliver d) := by
  unfold deliver
  dsimp only
  split
  · exact extends_note (m := { m with link := m.link.deliver d }) (e := .delivered d) trivial
  · exact .of_eq rfl

theorem history_deliver (m : Merge L u) (d : Delivery β) :
    (m.deliver d).history = m.history ++ if m.link.receiving then [.delivered d] else [] := by
  unfold deliver
  dsimp only
  split
  · exact history_note _ _
  · exact (List.append_nil _).symm

theorem link_deliver (m : Merge L u) (d : Delivery β) : (m.deliver d).link = m.link.deliver d := by
  unfold deliver; dsimp only; split <;> rfl

theorem inlets_deliver (m : Merge L u) (d : Delivery β) : (m.deliver d).inlets = m.inlets := by
  unfold deliver; dsimp only; split <;> rfl

theorem core_deliver (m : Merge L u) (d : Delivery β) : (m.deliver d).core = m.core := by
  unfold deliver; dsimp only; split <;> rfl

/-- What delivering the element `y` leaves alone, and what it changes. -/
structure Delivered (m : Merge L u) (y : β) (m' : Merge L u) : Prop where
  core : m'.core = { m.core with unsent := none, credit := m.credit.consume }
  inlets : m'.inlets = m.inlets
  awake : m'.awake = m.awake
  link : m'.link = { m.link with deliveries := m.link.deliveries ++ [.element y] }
  history : m'.history = m.history ++ [.delivered (.element y)]

theorem delivered_spec {m : Merge L u} (closing : Bool) (y : β) (hr : m.link.receiving = true) :
    Delivered m y { ({ m with unsent := none, credit := m.credit.consume } : Merge L u).deliver (.element y) with
      stage := .settling closing } := by
  have heq : ({ m with unsent := none, credit := m.credit.consume } : Merge L u).deliver (.element y) =
      ({ m with
        unsent := none, credit := m.credit.consume
        link := { m.link with deliveries := m.link.deliveries ++ [.element y] } } : Merge L u).note
        (.delivered (.element y)) := by
    simp only [deliver, Link.deliver, hr, if_true]
  rw [heq]
  exact ⟨rfl, rfl, rfl, rfl, history_note _ _⟩

namespace Delivered

variable {m m' : Merge L u} {y : β} (h : Delivered m y m')
include h

theorem unsent : m'.unsent = none := congrArg Core.unsent h.core

theorem credit : m'.credit = m.credit.consume := congrArg Core.credit h.core

/-- Besides the delivery nothing is written. -/
theorem extends_of (ok : Entry L → Prop) (hok : ok (.delivered (.element y))) : Extends ok m m' :=
  ⟨_, h.history, by simpa using hok⟩

theorem deliveries : m'.deliveries = m.deliveries ++ [.element y] := by
  rw [Merge.deliveries, h.history, List.filterMap_append]
  rfl

end Delivered

/-- Tells the consumer and the log how the run ends. -/
def announce (m : Merge L u) (released : Nat) : Verdict → Merge L u
  | .ok .completed => (m.deliver .complete).log (.completed m.handled released)
  | .ok .cancelled => m.log (.cancelled m.handled released m.credit.remaining)
  | .error e => (m.log (.failed e m.handled released)).deliver (.error e)

theorem finish_eq (m : Merge L u) (v : Verdict) :
    m.finish v =
      { m.releaseAll.announce (m.inlets.countP (·.source.isSome)) v with
        stage := .ended v, awake := false
        link := (m.releaseAll.announce (m.inlets.countP (·.source.isSome)) v).link.detach } := by
  unfold finish announce
  cases v with
  | ok outcome => cases outcome <;> rfl
  | error e => rfl

theorem core_announce (m : Merge L u) (n : Nat) (v : Verdict) : (m.announce n v).core = m.core := by
  unfold announce; split <;> first | rfl | exact core_deliver _ _

theorem inlets_announce (m : Merge L u) (n : Nat) (v : Verdict) : (m.announce n v).inlets = m.inlets := by
  unfold announce; split <;> first | rfl | exact inlets_deliver _ _

theorem link_announce (m : Merge L u) (n : Nat) (v : Verdict) :
    (m.announce n v).link = ((farewell v).map m.link.deliver).getD m.link := by
  unfold announce; split <;> first | rfl | exact link_deliver _ _

theorem extends_announce (m : Merge L u) (n : Nat) (v : Verdict) :
    Extends isClosing m (m.announce n v) := by
  have hlog : ∀ (m : Merge L u) (r : Record), Extends isClosing m (m.log r) :=
    fun m r => extends_note m (e := .logged r) trivial
  unfold announce
  split
  · exact (extends_deliver _ _).trans (hlog _ _)
  · exact hlog _ _
  · exact (hlog _ _).trans (extends_deliver _ _)

theorem deliveries_log (m : Merge L u) (r : Record) : (m.log r).deliveries = m.deliveries := by
  simp [deliveries, Entry.delivered?]

theorem deliveries_deliver (m : Merge L u) (d : Delivery β) :
    (m.deliver d).deliveries = m.deliveries ++ if m.link.receiving then [d] else [] := by
  rw [deliveries, history_deliver, List.filterMap_append]
  split <;> simp [deliveries, Entry.delivered?]

theorem deliveries_announce (m : Merge L u) (n : Nat) (v : Verdict) :
    (m.announce n v).deliveries = m.deliveries ++ if m.link.receiving then (farewell v).toList else [] := by
  unfold announce
  split
  · rw [deliveries_log, deliveries_deliver]; rfl
  · rw [deliveries_log]; simp [farewell]
  · rw [deliveries_deliver, deliveries_log]; rfl

/-- What the end of a run leaves alone, and what it adds. -/
structure Finished (m : Merge L u) (v : Verdict) (m' : Merge L u) : Prop where
  stage : m'.stage = .ended v
  awake : m'.awake = false
  core : m'.core = m.core
  inlet : ∀ k : InletId, m'.inlets[k]? = m.inlets[k]?.map (·.release.2)
  signals : m'.link.signals = []
  senders : m'.link.senders = m.link.senders
  receiving : m'.link.receiving = m.link.receiving
  queue : m'.link.deliveries = m.link.deliveries ++ if m.link.receiving then (farewell v).toList else []
  history : Extends isClosing m m'
  deliveries : m'.deliveries = m.deliveries ++ if m.link.receiving then (farewell v).toList else []

theorem finish_spec (m : Merge L u) (v : Verdict) : Finished m v (m.finish v) := by
  rw [finish_eq]
  generalize m.inlets.countP (·.source.isSome) = n
  have hf := frame_releaseAll m
  have hx : Extends isClosing m m.releaseAll := (extends_releaseAll m).mono fun e ⟨p, he⟩ => he ▸ trivial
  have hd : m.releaseAll.deliveries = m.deliveries :=
    (extends_releaseAll m).filterMap_eq fun e ⟨p, he⟩ => he ▸ rfl
  refine ⟨rfl, rfl, (core_announce m.releaseAll n v).trans hf.core, fun k => ?_, rfl, ?_, ?_, ?_,
    hx.trans (extends_announce m.releaseAll n v), ?_⟩
  · exact (congrArg (·[k]?) (inlets_announce m.releaseAll n v)).trans (getElem?_releaseAll m k)
  · show (m.releaseAll.announce n v).link.senders = _
    rw [link_announce, ← hf.senders]
    cases farewell (β := β) v with
    | none => rfl
    | some d => simp only [Option.map_some, Option.getD_some, Link.deliver]; split <;> rfl
  · show (m.releaseAll.announce n v).link.receiving = _
    rw [link_announce, ← hf.receiving]
    cases farewell (β := β) v with
    | none => rfl
    | some d => simp only [Option.map_some, Option.getD_some, Link.deliver]; split <;> rfl
  · show (m.releaseAll.announce n v).link.deliveries = _
    rw [link_announce, ← hf.receiving, ← hf.deliveries]
    cases farewell (β := β) v with
    | none => simp
    | some d => simp only [Option.map_some, Option.getD_some, Link.deliver]; split <;> simp
  · exact (deliveries_announce m.releaseAll n v).trans (by rw [hd, hf.receiving])

/-! ## Handling an event -/

/-- Writes entries in order. -/
def noteAll (m : Merge L u) (es : List (Entry L)) : Merge L u := es.foldl note m

/-- The merge after an event of `p` was taken up and handled, before its requests are applied. -/
def accept (m : Merge L u) (choice : Choice) (p : InletId) (a : Arrival α) : Merge L u :=
  let t := m.transition p a
  let counted := { m with
    turn := if !a.isTerminal && choice.advances p then p + 1 else m.turn
    memory := t.memory, handled := m.handled + 1 }
  (counted.noteAll (.arrived choice p a :: (m.handling p a t.next).toList)).trace p a t.next

/-- Goes to another state, under another end policy if there is one to follow. -/
def goOn (m : Merge L u) (policy : Option (EndPolicy L.Key)) (next : L.State) : Merge L u :=
  { m.follow policy with state := next }

/-- Applies effects that keep the rule of one emission, short of ending the run. -/
def settled (m : Merge L u) (fx : Effects β L.Key) (next : L.State) : Merge L u :=
  (fx.releases.foldl releaseNamed (m.goOn fx.policy next)).emit fx.emission

theorem dispatch_eq (m : Merge L u) (choice : Choice) (p : InletId) (a : Arrival α) :
    m.dispatch choice p a =
      (m.accept choice p a).apply p (.ofActions (m.transition p a).actions) (m.transition p a).next := by
  have ht : ∀ k j, ({ m with turn := k, journal := j } : Merge L u).transition p a = m.transition p a :=
    fun _ _ => rfl
  have hh : ∀ k j, ({ m with turn := k, journal := j } : Merge L u).handling p a = m.handling p a :=
    fun _ _ => rfl
  cases h : !a.isTerminal && choice.advances p
  · simp only [dispatch, accept, note, h, Bool.false_eq_true, if_false, hh, ht]
    cases m.handling p a (m.transition p a).next <;> rfl
  · simp only [dispatch, accept, note, h, if_true, hh, ht]
    cases m.handling p a (m.transition p a).next <;> rfl

theorem apply_eq (m : Merge L u) (p : InletId) (fx : Effects β L.Key) (next : L.State) :
    m.apply p fx next =
      if fx.emittedTwice then
        (m.log (.violated .emittedTwice p (L.showState m.state))).finish (.error (.protocol .emittedTwice))
      else (m.settled fx next).close fx.closing := rfl

theorem noteAll_eq : ∀ (m : Merge L u) (es : List (Entry L)),
    m.noteAll es = { m with journal := m.journal ++ es.toArray }
  | m, [] => by simp [noteAll]
  | m, e :: es => by
    show (m.note e).noteAll es = _
    rw [noteAll_eq (m.note e) es]
    simp [note]

theorem trace_spec (m : Merge L u) (p : InletId) (a : Arrival α) (next : L.State) :
    (m.trace p a next).inlets = m.inlets ∧ (m.trace p a next).link = m.link ∧ Frame m (m.trace p a next) ∧
    ∃ rs, (m.trace p a next).history = m.history ++ rs ∧ ∀ e ∈ rs, ∃ r, e = .logged r := by
  unfold trace
  split
  · exact ⟨rfl, rfl, frame_log _ _, _, history_log _ _, by simp⟩
  · exact ⟨rfl, rfl, .refl m, [], by simp, by simp⟩

/-- A call of the strategy. -/
def isCall : Entry L → Prop
  | .onElement .. | .onEnd .. | .onFailure .. => True
  | _ => False

theorem isCall_handling {m : Merge L u} {p : InletId} {a : Arrival α} {next : L.State} {e : Entry L}
    (he : e ∈ (m.handling p a next).toList) : isCall e := by
  unfold handling at he
  split at he
  · obtain rfl := Option.some.inj (Option.mem_toList.1 he); trivial
  · obtain rfl := Option.some.inj (Option.mem_toList.1 he); trivial
  · obtain rfl := Option.some.inj (Option.mem_toList.1 he); trivial
  · cases he

/-- What taking up an event leaves alone, and what it writes. -/
structure Accepted (m : Merge L u) (choice : Choice) (p : InletId) (a : Arrival α) (m' : Merge L u) : Prop where
  inlets : m'.inlets = m.inlets
  link : m'.link = m.link
  stage : m'.stage = m.stage
  awake : m'.awake = m.awake
  state : m'.state = m.state
  policy : m'.policy = m.policy
  memory : m'.memory = (m.transition p a).memory
  credit : m'.credit = m.credit
  unsent : m'.unsent = m.unsent
  turn : m'.turn = if !a.isTerminal && choice.advances p then p + 1 else m.turn
  history : ∃ rs, m'.history =
    m.history ++ .arrived choice p a :: ((m.handling p a (m.transition p a).next).toList ++ rs) ∧
    ∀ e ∈ rs, ∃ r, e = .logged r

theorem accept_spec (m : Merge L u) (choice : Choice) (p : InletId) (a : Arrival α) :
    Accepted m choice p a (m.accept choice p a) := by
  unfold accept
  obtain ⟨hi, hl, hf, rs, hrs, hlog⟩ := trace_spec (noteAll { m with
    turn := if !a.isTerminal && choice.advances p then p + 1 else m.turn
    memory := (m.transition p a).memory, handled := m.handled + 1 }
    (.arrived choice p a :: (m.handling p a (m.transition p a).next).toList)) p a (m.transition p a).next
  have hn := fun m' : Merge L u => noteAll_eq m'
    (.arrived choice p a :: (m.handling p a (m.transition p a).next).toList)
  rw [hn] at hi hl hf hrs
  dsimp only
  rw [hn]
  exact ⟨hi, hl, hf.stage, hf.awake, hf.state, hf.policy, hf.memory, hf.credit, hf.unsent, hf.turn, rs,
    hrs.trans (by simp [history]), hlog⟩

/-! ## Applying effects -/

/-- What applying effects leaves alone, and what it changes. -/
structure Settled (m : Merge L u) (fx : Effects β L.Key) (next : L.State) (m' : Merge L u) : Prop where
  link : m'.link = m.link
  stage : m'.stage = m.stage
  awake : m'.awake = m.awake
  count : m'.inlets.length = m.inlets.length
  state : m'.state = next
  policy : m'.policy = fx.policy.getD m.policy
  memory : m'.memory = m.memory
  credit : m'.credit = m.credit
  turn : m'.turn = m.turn
  unsent : m'.unsent = (fx.emission <|> m.unsent)
  inlet : ∀ k : InletId, m'.inlets[k]? =
    if k ∈ fx.releases then m.inlets[k]?.map (·.release.2) else m.inlets[k]?
  history : ∃ rs, m'.history = m.history ++ (rs ++ (fx.emission.map .emitted).toList) ∧ ∀ e ∈ rs, isRelease e

theorem link_release (m : Merge L u) (p : InletId) : (m.release p).link = m.link := by
  unfold release
  split
  · rfl
  · exact link_putInlet m p _

theorem releaseNamed_spec (m : Merge L u) (p : InletId) :
    Frame m (m.releaseNamed p) ∧ (m.releaseNamed p).link = m.link ∧ Extends isRelease m (m.releaseNamed p) ∧
    ∀ k : InletId, (m.releaseNamed p).inlets[k]? =
      if k = p then m.inlets[k]?.map (·.release.2) else m.inlets[k]? := by
  unfold releaseNamed
  split
  · refine ⟨frame_release m p, link_release m p,
      (extends_release m p).mono fun e he => by rw [he]; trivial, fun k => ?_⟩
    rw [inlets_release, List.getElem?_modify]
    by_cases hk : k = p
    · simp [hk]
    · simp [hk, Ne.symm hk]
  · rename_i hp
    refine ⟨frame_log m _, rfl, extends_note m (e := .logged _) trivial, fun k => ?_⟩
    split
    · rename_i hk
      subst hk
      have hn : m.inlets[k]? = none := List.getElem?_eq_none (Nat.le_of_not_lt hp)
      exact hn.trans (by rw [hn]; rfl)
    · rfl

theorem foldl_releaseNamed_spec : ∀ (ps : List InletId) (m : Merge L u),
    Frame m (ps.foldl releaseNamed m) ∧ (ps.foldl releaseNamed m).link = m.link ∧
    Extends isRelease m (ps.foldl releaseNamed m) ∧
    ∀ k : InletId, (ps.foldl releaseNamed m).inlets[k]? =
      if k ∈ ps then m.inlets[k]?.map (·.release.2) else m.inlets[k]?
  | [], m => ⟨.refl m, rfl, .refl m, fun k => by simp⟩
  | p :: ps, m => by
    obtain ⟨hf, hl, hx, hi⟩ := releaseNamed_spec m p
    obtain ⟨hf', hl', hx', hi'⟩ := foldl_releaseNamed_spec ps (m.releaseNamed p)
    refine ⟨hf.trans hf', hl'.trans hl, hx.trans hx', fun k => ?_⟩
    rw [List.foldl_cons, hi', hi]
    by_cases hk : k = p
    · subst hk
      cases m.inlets[k]? <;> simp
    · simp [hk]

theorem goOn_spec (m : Merge L u) (policy : Option (EndPolicy L.Key)) (next : L.State) :
    Settled m ⟨none, false, none, policy, []⟩ next (m.goOn policy next) := by
  cases policy with
  | none =>
    exact ⟨rfl, rfl, rfl, rfl, rfl, rfl, rfl, rfl, rfl, rfl, fun k => by simp [goOn, follow], [],
      by simp [goOn, follow, history], by simp⟩
  | some policy =>
    refine ⟨rfl, rfl, rfl, rfl, rfl, rfl, rfl, rfl, rfl, rfl, fun k => by simp [goOn, follow, log, note],
      [.logged (.policyReplaced policy.label)], by simp [goOn, follow, history, log, note], fun e he => ?_⟩
    rw [List.mem_singleton.1 he]
    trivial

theorem settled_spec (m : Merge L u) (fx : Effects β L.Key) (next : L.State) :
    Settled m fx next (m.settled fx next) := by
  have h := goOn_spec m fx.policy next
  obtain ⟨rs, hrs, hok⟩ := h.history
  obtain ⟨hf, hl, ⟨rs', hrs', hok'⟩, hi⟩ := foldl_releaseNamed_spec fx.releases (m.goOn fx.policy next)
  have hall : ∀ e ∈ rs ++ rs', isRelease e := fun e he => (List.mem_append.1 he).elim (hok e) (hok' e)
  have hinlet : ∀ k : InletId, (fx.releases.foldl releaseNamed (m.goOn fx.policy next)).inlets[k]? =
      if k ∈ fx.releases then m.inlets[k]?.map (·.release.2) else m.inlets[k]? := by
    intro k
    rw [hi k, h.inlet k]
    simp
  unfold settled emit
  generalize fx.releases.foldl releaseNamed (m.goOn fx.policy next) = m' at *
  have hh : m'.history = m.history ++ (rs ++ rs') := by rw [hrs', hrs]; simp
  cases hem : fx.emission with
  | none =>
    exact ⟨hl.trans h.link, hf.stage.trans h.stage, hf.awake.trans h.awake, hf.count.trans h.count,
      hf.state.trans h.state, hf.policy.trans h.policy, hf.memory.trans h.memory, hf.credit.trans h.credit,
      hf.turn.trans h.turn, hf.unsent.trans (by rw [h.unsent, hem]), hinlet, rs ++ rs',
      by rw [hh, hem]; simp, hall⟩
  | some y =>
    exact ⟨hl.trans h.link, hf.stage.trans h.stage, hf.awake.trans h.awake, hf.count.trans h.count,
      hf.state.trans h.state, hf.policy.trans h.policy, hf.memory.trans h.memory, hf.credit.trans h.credit,
      hf.turn.trans h.turn, by rw [hem]; rfl, hinlet, rs ++ rs',
      (history_note _ _).trans (by rw [hem, ← List.append_assoc, ← hh]; rfl), hall⟩

/-- After the last change to `m`: the run has ended and forgets its signals, or it goes on. -/
inductive Closes (m m' : Merge L u) : Prop
  | ended : m'.stage.isFinal = true → m'.link.signals = [] → m'.link.senders = m.link.senders →
      m'.link.receiving = m.link.receiving → Closes m m'
  | goesOn : m'.stage.isFinal = false → m'.awake = m.awake → m'.link = m.link → Closes m m'

theorem closes_finish {m m' : Merge L u} (h : m'.link = m.link) (v : Verdict) : Closes m (m'.finish v) := by
  have hf := finish_spec m' v
  exact .ended (by rw [hf.stage]; rfl) hf.signals (by rw [hf.senders, h]) (by rw [hf.receiving, h])

/-- Handling an event ends the run or lets it go on. -/
theorem closes_dispatch (m : Merge L u) (choice : Choice) (p : InletId) (a : Arrival α) :
    Closes m (m.dispatch choice p a) := by
  have ha := accept_spec m choice p a
  rw [dispatch_eq, apply_eq]
  split
  · exact closes_finish (by exact ha.link) _
  · have hs := settled_spec (m.accept choice p a) (.ofActions (m.transition p a).actions) (m.transition p a).next
    unfold close
    split
    · exact .goesOn rfl (hs.awake.trans ha.awake) (hs.link.trans ha.link)
    · exact .goesOn rfl (hs.awake.trans ha.awake) (hs.link.trans ha.link)
    · exact closes_finish (hs.link.trans ha.link) _

end StreamMerge.Merge
