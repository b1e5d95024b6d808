import StreamMerge.Proofs.Gist
import StreamMerge.Proofs.Handles
import StreamMerge.Proofs.Listing
import StreamMerge.Proofs.Uprightness

/-!
# Collecting lists to the end

Whoever collects the merge of some lists gets a result. The collector and the run take turns: the collector empties the
queue and asks for its next batch, and the run delivers the batch or ends. A run that has not ended has used up the
batch, so each turn takes at least one of the events that are due (`Merge.OnCourse.poll_gains`), and both the steps of a
turn and the number of turns stay below what `Merge.budget` allows (`Session.collect_instant`).
-/
namespace StreamMerge

variable {α β : Type} {L : Strategy α β} {u : Source α} {w : u.Forecast} {answers? : u.State → Option Nat}

namespace Merge

variable {origin m m' : Merge L u}

/-! ## What is due -/

/-- The events that are due from each inlet. -/
def dues (answers? : u.State → Option Nat) (m : Merge L u) : List Nat := m.inlets.map (Inlet.due answers?)

theorem sum_map_le {γ : Type} {f : γ → Nat} : ∀ {xs : List γ} {ns : List Nat},
    (∀ (p : Nat) (x : γ), xs[p]? = some x → ∃ n, ns[p]? = some n ∧ f x ≤ n) → (xs.map f).sum ≤ ns.sum
  | [], _, _ => Nat.zero_le _
  | x :: xs, ns, h => by
    obtain ⟨n, hn, hle⟩ := h 0 x rfl
    cases ns with
    | nil => cases hn
    | cons n' ns =>
      obtain rfl : n' = n := Option.some.inj hn
      have ih : (xs.map f).sum ≤ ns.sum := sum_map_le fun p y hy => h (p + 1) y hy
      simp only [List.map_cons, List.sum_cons]
      omega

theorem Due.exact (hw : w.Instant answers?) {ns : List Nat} (h : m.Due ns) (hl : m.EachAccount (Account.Listed w)) :
    m.Due (m.dues answers?) ∧ (m.dues answers?).sum ≤ ns.sum := by
  constructor
  · intro p q hq
    obtain ⟨n, hn, hd⟩ := h p q hq
    refine ⟨q.due answers?, ?_, (hd.exact hw (hl p q hq)).1⟩
    rw [dues, List.getElem?_map, hq, Option.map_some]
  · refine sum_map_le fun p q hq => ?_
    obtain ⟨n, hn, hd⟩ := h p q hq
    exact ⟨n, hn, (hd.exact hw (hl p q hq)).2⟩

/-- The steps to the end of the run, at most. -/
def effort (answers? : u.State → Option Nat) (m : Merge L u) : Nat := m.toil (m.dues answers?)

theorem budget_eq (h : ∀ q ∈ m.inlets, ∀ s, q.source = some s → ∃ n, answers? s = some n) : m.budget answers? =
    some (16 + m.link.signals.length + (m.inlets.map fun q => 8 * (q.ahead answers? + 2)).sum) := by
  unfold budget
  dsimp only
  generalize 16 + m.link.signals.length = total
  generalize m.inlets = qs at h ⊢
  induction qs generalizing total with
  | nil => rfl
  | cons q qs ih =>
    have hrest := ih (total + 8 * (q.ahead answers? + 2)) fun q' hq' => h q' (List.mem_cons_of_mem q hq')
    simp only [List.map_cons, List.foldl_cons, List.sum_cons]
    rw [← Nat.add_assoc, ← hrest]
    cases hs : q.source with
    | none => simp only [Inlet.ahead, hs]
    | some s =>
      obtain ⟨n, hn⟩ := h q (by simp) s hs
      simp only [Inlet.ahead, hs, hn, Option.getD_some]

/-- The bound on the steps of a poll is large enough. -/
theorem effort_le_fuel (hw : w.Instant answers?) {s : Session L u} (hl : s.merge.EachAccount (Account.Listed w)) :
    s.merge.effort answers? ≤ Session.fuel answers? s := by
  have hbudget : s.merge.budget answers? = some (16 + s.merge.link.signals.length +
      (s.merge.inlets.map fun q => 8 * (q.ahead answers? + 2)).sum) := by
    refine budget_eq fun q hq s' hs' => ?_
    obtain ⟨p, hp⟩ := List.mem_iff_getElem?.1 hq
    obtain ⟨xs, ha⟩ := hl p q hp s' hs'
    exact ⟨_, hw.counts ha⟩
  have hsum : 8 * (s.merge.dues answers?).sum ≤
      (s.merge.inlets.map fun q => 8 * (q.ahead answers? + 2)).sum := by
    unfold dues
    induction s.merge.inlets with
    | nil => exact Nat.le_refl _
    | cons q qs ih =>
      have := q.due_le_ahead answers?
      simp only [List.map_cons, List.sum_cons]
      omega
  have hrank := s.merge.rank_le
  unfold Session.fuel effort toil
  rw [hbudget, Option.getD_some]
  omega

/-! ## A batch for a starved run -/

/-- A starved run that has been given a batch of `n`. -/
def refill (m : Merge L u) (n : Nat) : Merge L u :=
  { m with awake := true, credit := m.credit.grant n, link := { m.link.heed with signals := [] } }.note
    (.took (.request n))

theorem isPositive_refill (m : Merge L u) {n : Nat} (hn : 0 < n) : (m.refill n).credit.isPositive = true := by
  have hlimit : 0 < Credit.limit := by decide
  refine (Credit.isPositive_iff _).2 ?_
  show 0 < min (m.credit.remaining + n) Credit.limit
  omega

theorem step_request {m : Merge L u} {n : Nat} (hst : m.stage = .awaiting .read) (hc : m.credit.isPositive = false)
    (hs : m.link.signals = [.request n]) :
    ({ m with awake := true, link := m.link.heed } : Merge L u).step = m.refill n := by
  let roused : Merge L u := { m with awake := true, link := m.link.heed }
  have hst' : roused.stage = .awaiting .read := hst
  have hc' : ¬ roused.credit.isPositive = true := ne_true_of_eq_false hc
  have hs' : roused.link.signals = [.request n] := hs
  show roused.step = m.refill n
  simp only [Merge.step, refill, hst', hst, if_neg hc', hear, hs']
  rfl

theorem step_refill {m : Merge L u} {n : Nat} (hst : m.stage = .awaiting .read) (hn : 0 < n) :
    (m.refill n).step = (m.refill n).choose := by
  have hst' : (m.refill n).stage = .awaiting .read := hst
  simp only [Merge.step, hst', if_pos (m.isPositive_refill hn)]
  rfl

/-! ## Steps -/

/-- Nobody has withdrawn the run: it was neither given up nor cancelled. -/
structure Steady (m : Merge L u) : Prop where
  kept : m.stage ≠ .abandoned
  uncancelled : m.stage ≠ .ended (.ok .cancelled)

theorem Steady.of_isFinal {m : Merge L u} (h : m.stage.isFinal = false) : m.Steady := by
  constructor
  · intro hst
    rw [hst] at h
    cases h
  · intro hst
    rw [hst] at h
    cases h

theorem Steady.finish (m : Merge L u) {v : Verdict} (hv : v ≠ .ok .cancelled) : (m.finish v).Steady := by
  constructor
  · rw [(finish_spec m v).stage]
    exact nofun
  · rw [(finish_spec m v).stage]
    simpa using hv

/-- A run ends for its own reasons as long as it is wanted. -/
theorem Step.steady (h : Step m m') (hw : m.Wanted) (hs : m.Steady) : m'.Steady := by
  cases h with
  | opens => exact .of_isFinal rfl
  | turns stage ht => exact .of_isFinal ht.isFinal_next
  | starves => exact ⟨hs.kept, hs.uncancelled⟩
  | hears => exact ⟨hs.kept, hs.uncancelled⟩
  | delivers => exact .of_isFinal rfl
  | tries m' _ _ ht =>
    cases ht with
    | waits choice order hst =>
      refine .of_isFinal ?_
      show (m.seek order).2.stage.isFinal = false
      rw [(frame_seek m order).stage, hst]
      rfl
    | accepts choice order p a q =>
      obtain ⟨m₁, closing, heq, -⟩ := dispatch_close ((m.seek order).2.putInlet p q.take.2) choice p a
      rw [heq]
      rcases closing with _ | _ | e
      · exact .of_isFinal rfl
      · exact .of_isFinal rfl
      · show (m₁.finish (.error e)).Steady
        exact .finish m₁ nofun
  | ends m₁ v he =>
    cases he with
    | withdrawn rest _ hsig => exact absurd (hsig ▸ List.mem_cons_self) hw.signals
    | deserted _ _ h0 => exact absurd h0 hw.senders
    | undeliverable _ _ _ _ _ hr => exact absurd (hr.symm.trans hw.receiving) Bool.false_ne_true
    | completed => exact .finish _ nofun
    | refused => exact .finish _ nofun
    | stuck => exact .finish _ nofun
  | rests => exact hs

/-- A merge of lists that started as `origin`, and that is wanted. -/
structure OnCourse (w : u.Forecast) (answers? : u.State → Option Nat) (origin m : Merge L u) : Prop where
  reliable : m.Reliable
  wanted : m.Wanted
  steady : m.Steady
  listed : m.EachAccount (Account.Listed w)
  due : m.Due (m.dues answers?)
  heads : Heads origin m
  plain : ∀ e ∈ m.history, e.isPlain

namespace OnCourse

/-- A change of the link, of which only the queue and requests are new. -/
theorem relink (h : OnCourse w answers? origin m) {k : Link β} (hk : m.link.Around k)
    (hwanted : ({ m with link := k } : Merge L u).Wanted)
    (hsame : ({ m with link := k } : Merge L u).bare.gist = m.bare.gist) :
    OnCourse w answers? origin { m with link := k } :=
  ⟨(Change.relink m k hk).reliable h.reliable, hwanted, ⟨h.steady.kept, h.steady.uncancelled⟩, h.listed, h.due,
    h.heads.congr hsame, h.plain⟩

theorem rouse (h : OnCourse w answers? origin m) (hr : m.stage.isFinal = false) :
    OnCourse w answers? origin { m with awake := true, link := m.link.heed } :=
  ⟨(Change.rouse m hr).reliable h.reliable, ⟨h.wanted.receiving, h.wanted.senders, h.wanted.signals⟩,
    ⟨h.steady.kept, h.steady.uncancelled⟩, h.listed, h.due.congr rfl, h.heads.congr rfl, h.plain⟩

/-- What is due from a run that is starved. -/
theorem effort_of_starved (answers? : u.State → Option Nat) (hst : m.stage = .awaiting .read)
    (hs : m.link.signals = []) : m.effort answers? = 8 * (m.dues answers?).sum + 2 := by
  simp [effort, toil, rank, hst, hs]

theorem stage_choose (m : Merge L u) : m.choose.stage ≠ .awaiting .read := by
  unfold choose
  dsimp only
  split
  · rw [(finish_spec _ _).stage]
    exact nofun
  · split
    · rw [(finish_spec _ _).stage]
      exact nofun
    · exact nofun

section
variable (hw : w.Instant answers?)
include hw

/-- What a step does: the run rests, or comes nearer to its end. -/
theorem step (h : OnCourse w answers? origin m) (ha : m.awake = true) :
    OnCourse w answers? origin m.step ∧ m.step.effort answers? ≤ m.effort answers? ∧
    (m.step.Rests ∨
      m.step.awake = true ∧ m.step.stage.isFinal = false ∧ m.step.effort answers? < m.effort answers?) := by
  cases hr : m.stage.isFinal with
  | true =>
    rw [step_of_isFinal hr]
    exact ⟨h, Nat.le_refl _, Or.inl (.ended hr)⟩
  | false =>
    have hstep := step_spec m
    have hregular := h.reliable.regular
    have hlisted := h.listed.works (Account.durable_listed hw) hregular.balanced hstep.works
    obtain ⟨ns, hp⟩ := hstep.proceeds hregular.balanced hregular.coherent ha hr h.due
    obtain ⟨hdue, hsum⟩ := hp.due.exact hw hlisted
    have hle : m.step.effort answers? ≤ m.step.toil ns := by
      unfold effort toil
      omega
    have hplain : ∀ e ∈ m.step.history, e.isPlain := by
      obtain ⟨es, hes, hok⟩ := hstep.plain hw h.listed
      rw [hes]
      exact fun e he => (List.mem_append.1 he).elim (h.plain e) (hok e)
    refine ⟨⟨(Change.step m ha).reliable h.reliable, hstep.wanted h.wanted h.due, hstep.steady h.wanted h.steady,
      hlisted, hdue, h.heads.step h.wanted, hplain⟩, Nat.le_trans hle hp.toil, ?_⟩
    exact hp.rests.imp_right fun ⟨ha', hr', hlt⟩ => ⟨ha', hr', Nat.lt_of_le_of_lt hle hlt⟩

theorem advance : ∀ (fuel : Nat) {m : Merge L u}, OnCourse w answers? origin m →
    OnCourse w answers? origin (m.advance fuel) ∧ (m.advance fuel).effort answers? ≤ m.effort answers?
  | 0, _, h => ⟨h, Nat.le_refl _⟩
  | fuel + 1, m, h => by
    unfold Merge.advance
    split
    · rename_i ha
      obtain ⟨hs, hle, -⟩ := h.step hw ha
      obtain ⟨hr, hle'⟩ := advance fuel hs
      exact ⟨hr, Nat.le_trans hle' hle⟩
    · exact ⟨h, Nat.le_refl _⟩

theorem poll (h : OnCourse w answers? origin m) (fuel : Nat) :
    OnCourse w answers? origin (m.poll fuel) ∧ (m.poll fuel).effort answers? ≤ m.effort answers? := by
  unfold Merge.poll
  split
  · exact ⟨h, Nat.le_refl _⟩
  · rename_i hr
    exact (h.rouse (eq_false_of_ne_true hr)).advance hw fuel

omit hw in
/-- A poll that is given enough steps goes on until the run rests. -/
theorem poll_rests (h : OnCourse w answers? origin m) {fuel : Nat} (hf : m.effort answers? ≤ fuel) :
    (m.poll fuel).Rests := by
  unfold Merge.poll
  split
  · rename_i hr
    exact .ended hr
  · rename_i hr
    have h' := h.rouse (eq_false_of_ne_true hr)
    exact advance_rests fuel rfl (eq_false_of_ne_true hr) h'.wanted h'.reliable.regular.balanced
      h'.reliable.regular.coherent h'.due hf

/-- **A run that was starved and is given a batch handles an event before it starves again.** It takes the request and
chooses what to read, and with these two steps it has come nearer to its end than a starved run with as much due. -/
theorem poll_gains (h : OnCourse w answers? origin m) (hst : m.stage = .awaiting .read)
    (hc : m.credit.isPositive = false) {n : Nat} (hn : 0 < n) (hs : m.link.signals = [.request n]) {fuel : Nat}
    (hf : m.effort answers? ≤ fuel) :
    (m.poll fuel).stage.isFinal = true ∨ ((m.poll fuel).dues answers?).sum < (m.dues answers?).sum := by
  have hr : m.stage.isFinal = false := by rw [hst]; rfl
  have heffort : m.effort answers? = 8 * (m.dues answers?).sum + 3 := by simp [effort, toil, rank, hst, hs]
  have hrests := h.poll_rests hf
  obtain ⟨fuel, rfl⟩ : ∃ k, fuel = k + 2 := ⟨fuel - 2, by omega⟩
  have hawake : (m.refill n).awake = true := rfl
  have hpoll : m.poll (fuel + 2) = (m.refill n).choose.advance fuel := by
    unfold Merge.poll
    rw [if_neg (ne_true_of_eq_false hr), advance_succ rfl, step_request hst hc hs, advance_succ hawake,
      step_refill hst hn]
  obtain ⟨h₁, -, hnear₁⟩ := (h.rouse hr).step hw rfl
  rw [step_request hst hc hs] at h₁ hnear₁
  obtain ⟨h₂, -, hnear₂⟩ := h₁.step hw hawake
  rw [step_refill hst hn] at h₂ hnear₂
  rw [hpoll] at hrests ⊢
  have hlt₁ : (m.refill n).effort answers? < m.effort answers? := by
    rcases hnear₁ with (hfinal | ⟨-, -, hstarved⟩) | ⟨-, -, hlt⟩
    · rw [show (m.refill n).stage = .awaiting .read from hst] at hfinal
      cases hfinal
    · rw [m.isPositive_refill hn] at hstarved
      cases hstarved
    · exact hlt
  rcases hnear₂ with (hfinal | ⟨-, hstarved⟩) | ⟨-, -, hlt₂⟩
  · rw [advance_of_isFinal hfinal]
    exact Or.inl hfinal
  · exact absurd hstarved (stage_choose (m.refill n))
  · have hle := (h₂.advance hw fuel).2
    rcases hrests with hfinal | ⟨-, hst', -, hs'⟩
    · exact Or.inl hfinal
    · right
      rw [effort_of_starved answers? hst' hs'] at hle
      omega

end
end OnCourse

theorem Fresh.listed {m : Merge L u} {sources : List u.State} {inputs : List (List α)} (h : Fresh m sources)
    (ha : List.Forall₂ w.ahead sources inputs) {p : InletId} {q : Inlet u} (hq : m.inlets[p]? = some q) :
    ∃ s xs, q = Inlet.new s ∧ w.ahead s xs := by
  rw [h.inlets, List.getElem?_map] at hq
  obtain ⟨s, hs, rfl⟩ := Option.map_eq_some_iff.1 hq
  obtain ⟨hp, rfl⟩ := List.getElem?_eq_some_iff.1 hs
  exact ⟨_, _, rfl, ha.get hp (ha.length_eq ▸ hp)⟩

theorem Fresh.onCourse (hw : w.Instant answers?) {m : Merge L u} {sources : List u.State} {inputs : List (List α)}
    (h : Fresh m sources) (ha : List.Forall₂ w.ahead sources inputs) : OnCourse w answers? m m := by
  have hlisted : m.EachAccount (Account.Listed w) := by
    intro p q hq s' hs'
    obtain ⟨s, xs, rfl, hs⟩ := h.listed ha hq
    exact ⟨xs, Option.some.inj hs' ▸ hs⟩
  have hwanted : m.Wanted := by
    constructor
    · rw [h.link]
      rfl
    · rw [h.link]
      exact Nat.one_ne_zero
    · rw [h.link]
      exact List.not_mem_nil
  refine ⟨h.reliable, hwanted, .of_isFinal (by rw [h.stage]; rfl), hlisted, fun p q hq => ?_, .refl m, ?_⟩
  · obtain ⟨s, xs, rfl, hs⟩ := h.listed ha hq
    refine ⟨_, by rw [dues, List.getElem?_map, hq, Option.map_some], ?_⟩
    exact ((Inlet.due_new (hw.prompt hs)).exact hw (hlisted p _ hq)).1
  · rw [h.history]
    exact fun _ => nofun

end Merge

/-! ## The collector's turn -/

/-- The link once its queue has been taken, when there is no other signal than a request of `n`. -/
def Link.asked (k : Link β) (n : Nat) : Link β :=
  { k with signals := [.request n], deliveries := [], woken := true }

theorem Link.around_asked {k : Link β} (h : k.signals = []) (n : Nat) : k.Around (k.asked n) :=
  ⟨rfl, ⟨[.request n], by rw [h]; rfl⟩, ⟨k.deliveries, (List.append_nil _).symm⟩, id⟩

/-- A collector that has got all it asked for takes it, and asks for the next batch. -/
theorem Collector.receive_all : ∀ (ys : List β) (c : Collector β) (k : Link β), c.outstanding = ys.length →
    c.mute = false → k.attached = true → k.signals = [] → c.receive k (ys.map .element) =
      (none, { c with outstanding := c.batch, gathered := c.gathered ++ ys }, k.asked c.batch)
  | [], c, k, ho, hm, ha, hs => by
    have hc : c.replenish { k with deliveries := [] } = ({ c with outstanding := c.batch }, k.asked c.batch) := by
      unfold replenish Link.send
      rw [if_pos (show c.outstanding = 0 from ho), hm, if_neg Bool.false_ne_true, if_pos ha]
      dsimp only
      rw [hs]
      rfl
    rw [List.map_nil, receive_nil, hc, if_pos ha, List.append_nil]
  | y :: ys, c, k, ho, hm, ha, hs => by
    have hc : c.replenish k = (c, k) := if_neg (by rw [ho]; exact Nat.succ_ne_zero _)
    have hrest := receive_all ys (c.accept y) k (by simp [accept, ho]) hm ha hs
    rw [List.map_cons, receive, hc]
    refine hrest.trans ?_
    simp [accept]

/-- The move is one of those that collecting is made of. -/
def Move.isTurn : Move u → Prop
  | .beginCollect _ | .pollCollector | .poll _ => True
  | _ => False

namespace Session

variable {origin : Merge L u} {s s' s'' : Session L u} {n : Nat}

/-- Collecting leads from `s` to `s'`. -/
def Leads (s s' : Session L u) : Prop := ∃ moves : List (Move u), (∀ mv ∈ moves, mv.isTurn) ∧ s.play moves = s'

theorem Leads.trans (h : Leads s s') (h' : Leads s' s'') : Leads s s'' := by
  obtain ⟨before, hbefore, rfl⟩ := h
  obtain ⟨after, hafter, rfl⟩ := h'
  refine ⟨before ++ after, fun mv hmv => ?_, play_append s before after⟩
  exact (List.mem_append.1 hmv).elim (hbefore mv) (hafter mv)

theorem leads_perform (s : Session L u) (mv : Move u) (h : mv.isTurn) : Leads s (s.perform mv) := by
  refine ⟨[mv], ?_, rfl⟩
  simpa using h

/-- The consumer collects, in batches of `n`, a merge of lists that started as `origin`. -/
structure Attended (w : u.Forecast) (answers? : u.State → Option Nat) (origin : Merge L u) (s : Session L u)
    (n : Nat) : Prop where
  collector : ∃ c, s.consumer = .collecting c ∧ s.Gathers c n
  onCourse : Merge.OnCourse w answers? origin s.merge

/-- It is the collector's turn: the run goes on, and has used all that was asked for. -/
structure Hungry (w : u.Forecast) (answers? : u.State → Option Nat) (origin : Merge L u) (s : Session L u)
    (n : Nat) : Prop extends Attended w answers? origin s n where
  running : s.merge.stage.isFinal = false
  credit : s.merge.credit.isPositive = false
  signals : s.merge.link.signals = []

/-- In its turn the collector asks for a batch. -/
structure Asks (s : Session L u) (n : Nat) (s' : Session L u) : Prop where
  runnable : s.collectorRunnable = true
  result : s.pollCollector = (none, s')
  merge : s'.merge = { s.merge with link := s.merge.link.asked n }

/-- Of what the collector asked for, it has yet to see what is in the queue, and nothing else. -/
theorem Hungry.outstanding (h : Hungry w answers? origin s n) {c : Collector β} (hg : s.Gathers c n) :
    ∃ ys : List β, s.merge.link.deliveries = ys.map .element ∧ c.outstanding = ys.length := by
  obtain ⟨ys, -, hq⟩ := hg.queue (h.onCourse.reliable.truthful hg.receiving)
  rw [Merge.parting_of_isFinal h.running, List.append_nil] at hq
  have hqueued : s.merge.link.queued = ys.length := by
    unfold Link.queued
    rw [hq, List.filterMap_map]
    exact congrArg List.length List.filterMap_some
  have hbalance : s.merge.credit.remaining + s.merge.link.waiting + s.merge.link.queued = c.outstanding :=
    hg.balance h.running
  have hcredit : ¬ 0 < s.merge.credit.remaining :=
    mt (Credit.isPositive_iff s.merge.credit).2 (ne_true_of_eq_false h.credit)
  have hwaiting : s.merge.link.waiting = 0 := by
    unfold Link.waiting
    rw [h.signals]
    rfl
  exact ⟨ys, hq, by omega⟩

theorem Hungry.asks (h : Hungry w answers? origin s n) (hn : 0 < n) :
    ∃ s', Asks s n s' ∧ Attended w answers? origin s' n := by
  obtain ⟨c, hc, hg⟩ := h.collector
  have hreliable := h.onCourse.reliable
  have ha : s.merge.link.attached = true := hreliable.regular.attached h.running
  obtain ⟨ys, hq, ho⟩ := h.outstanding hg
  have hrun : c.isRunnable s.merge.link = true := by
    unfold Collector.isRunnable
    cases ys with
    | nil => simp [ho]
    | cons y ys => simp [hq]
  have hpoll := c.receive_all ys s.merge.link ho hg.batches.mute ha h.signals
  rw [← hq, hg.batches.batch] at hpoll
  let s' : Session L u := { s with
    merge := { s.merge with link := s.merge.link.asked n }
    consumer := .collecting ⟨n, n, c.gathered ++ ys, c.mute⟩ }
  have hresult : s.pollCollector = (none, s') := by
    unfold pollCollector
    rw [hc]
    dsimp only
    rw [if_pos hrun, Collector.poll, hpoll]
    rfl
  refine ⟨s', ⟨?_, hresult, rfl⟩, ?_, ?_⟩
  · unfold collectorRunnable
    rw [hc]
    exact hrun
  · obtain ⟨-, c', hc', hg'⟩ := hg.collect hc hn hreliable h.running
    rw [hresult] at hc' hg'
    exact ⟨c', hc', hg'⟩
  · refine h.onCourse.relink (Link.around_asked h.signals n) ⟨?_, ?_, ?_⟩ rfl
    · exact h.onCourse.wanted.receiving
    · exact h.onCourse.wanted.senders
    · simp [Link.asked]

/-! ## The turns -/

/-- With the run over, the collector has its result in its next turn, and that was the last one. -/
theorem Attended.conclude (h : Attended w answers? origin s n) (hf : s.merge.stage.isFinal = true)
    (fuel : Session L u → Nat) (rounds : Nat) :
    alternate fuel none (rounds + 1) s = (some s.merge.collection, s.perform .pollCollector) := by
  obtain ⟨c, hc, hg⟩ := h.collector
  have hrun : s.collectorRunnable = true := by
    unfold collectorRunnable
    rw [hc]
    simp [Collector.isRunnable, h.onCourse.reliable.detached hf]
  obtain ⟨hresult, hgone⟩ := hg.conclude hc h.onCourse.reliable hf
  have hover : (s.perform .pollCollector).isRunnable = false := by
    have := (perform_changes s .pollCollector).isFinal hf
    simp [isRunnable, isRunning, this]
  have hidle : (s.perform .pollCollector).collectorRunnable = false := by
    have hgone : (s.perform .pollCollector).consumer = .gone := hgone
    unfold collectorRunnable
    rw [hgone]
  have hpoll : s.pollCollector = (some s.merge.collection, s.perform .pollCollector) := Prod.ext hresult rfl
  unfold alternate
  rw [hrun, Bool.true_or, if_pos rfl, hpoll]
  dsimp only
  rw [hover, if_neg Bool.false_ne_true]
  cases rounds with
  | zero => rfl
  | succ rounds =>
    unfold alternate
    rw [hover, hidle]
    rfl

section
variable (hw : w.Instant answers?)
include hw

/-- **A turn of the collector and a poll of the run**: the run is over, or it is the collector's turn again and there is
less to do. -/
theorem Hungry.turn (h : Hungry w answers? origin s n) (hn : 0 < n) (hl : n ≤ Credit.limit) :
    ∃ s', Leads s s' ∧ (∀ rounds, alternate (Session.fuel answers?) none (rounds + 1) s =
        alternate (Session.fuel answers?) none rounds s') ∧ Attended w answers? origin s' n ∧
      (s'.merge.stage.isFinal = true ∨ Hungry w answers? origin s' n ∧ s'.merge.stage = .awaiting .read ∧
        8 * (s'.merge.dues answers?).sum + 2 ≤ s.merge.effort answers? + 1 ∧
        (s.merge.stage = .awaiting .read → (s'.merge.dues answers?).sum < (s.merge.dues answers?).sum)) := by
  obtain ⟨s₁, hasks, h₁⟩ := h.asks hn
  have hm := hasks.merge
  have hst : s₁.merge.stage = s.merge.stage := by rw [hm]
  have hsignals : s₁.merge.link.signals = [.request n] := by rw [hm]; rfl
  have hcredit : s₁.merge.credit.isPositive = false := by rw [hm]; exact h.credit
  have hdues : s₁.merge.dues answers? = s.merge.dues answers? := by rw [hm]; rfl
  have heffort : s₁.merge.effort answers? = s.merge.effort answers? + 1 := by
    unfold Merge.effort Merge.toil Merge.rank
    rw [hdues, hsignals, h.signals, hm]
    rfl
  have hfuel := Merge.effort_le_fuel hw h₁.onCourse.listed
  have hrests := h₁.onCourse.poll_rests hfuel
  obtain ⟨hpolled, hle⟩ := h₁.onCourse.poll hw (Session.fuel answers? s₁)
  obtain ⟨c, hc, hg⟩ := h₁.collector
  have hattended : Attended w answers? origin (s₁.poll (Session.fuel answers?)) n := ⟨⟨c, hc, hg.poll hl _⟩, hpolled⟩
  refine ⟨s₁.poll (Session.fuel answers?), ?_, fun rounds => ?_, hattended, ?_⟩
  · have hcollector : s.perform .pollCollector = s₁ := congrArg Prod.snd hasks.result
    have hleads := s.leads_perform .pollCollector trivial
    rw [hcollector] at hleads
    exact hleads.trans (s₁.leads_perform (.poll (Session.fuel answers? s₁)) trivial)
  · have hrun : s₁.isRunnable = true := by
      unfold isRunnable isRunning
      rw [hst, h.running, hm]
      rfl
    rw [alternate, hasks.runnable, Bool.true_or, if_pos rfl, hasks.result]
    dsimp only
    rw [if_pos hrun]
    rfl
  · refine or_iff_not_imp_left.2 fun hf => ?_
    rcases hrests with hfinal | ⟨-, hst', hcredit', hsignals'⟩
    · exact absurd hfinal hf
    · refine ⟨⟨hattended, eq_false_of_ne_true hf, hcredit', hsignals'⟩, hst', ?_, fun hstarved => ?_⟩
      · have heffort' := Merge.OnCourse.effort_of_starved answers? hst' hsignals'
        show 8 * ((s₁.merge.poll (Session.fuel answers? s₁)).dues answers?).sum + 2 ≤ _
        omega
      · have hgains := h₁.onCourse.poll_gains hw (hst.trans hstarved) hcredit hn hsignals hfuel
        rw [hdues] at hgains
        exact hgains.resolve_left hf

/-- What the turns of a collector and a run come to: the run is over at `s'`, and the collector has its result. -/
structure Comes (w : u.Forecast) (answers? : u.State → Option Nat) (origin : Merge L u) (s : Session L u) (rounds : Nat)
    (s' : Session L u) : Prop where
  leads : Leads s s'
  onCourse : Merge.OnCourse w answers? origin s'.merge
  finished : s'.merge.stage.isFinal = true
  result : alternate (Session.fuel answers?) none rounds s = (some s'.merge.collection, s'.perform .pollCollector)

/-- A starved run and its collector come to the result in as many turns as events are due, and two more. -/
theorem Hungry.collects (hn : 0 < n) (hl : n ≤ Credit.limit) : ∀ (rounds : Nat) {s : Session L u},
    Hungry w answers? origin s n → s.merge.stage = .awaiting .read → (s.merge.dues answers?).sum + 2 ≤ rounds →
    ∃ s', Comes w answers? origin s rounds s'
  | 0, _, _, _, hle => by omega
  | rounds + 1, s, h, hst, hle => by
    obtain ⟨s', hleads, hgo, h', hends⟩ := h.turn hw hn hl
    rcases hends with hf | ⟨hhungry, hst', -, hless⟩
    · obtain ⟨rounds, rfl⟩ : ∃ k, rounds = k + 1 := ⟨rounds - 1, by omega⟩
      exact ⟨s', hleads, h'.onCourse, hf, (hgo _).trans (h'.conclude hf _ rounds)⟩
    · have := hless hst
      obtain ⟨s'', hcomes⟩ := collects hn hl rounds hhungry hst' (by omega)
      exact ⟨s'', hleads.trans hcomes.leads, hcomes.onCourse, hcomes.finished, (hgo _).trans hcomes.result⟩

end

/-! ## Collecting -/

/-- What collecting the merge `m` in batches comes to: the run is over at the session `s`, and the collector has its
result. -/
structure Yields (w : u.Forecast) (answers? : u.State → Option Nat) (m : Merge L u) (batch : Nat)
    (s : Session L u) : Prop where
  leads : Leads (start m) s
  onCourse : Merge.OnCourse w answers? m s.merge
  finished : s.merge.stage.isFinal = true
  result : (start m).collect (Session.fuel answers?) (Session.fuel answers? (start m)) batch =
    (.ended s.merge.collection, (s.merge.verdict?.map .ended).getD .pending, s.perform .pollCollector)

/-- **Whoever collects a merge of lists gets what there is to show for it at its end.** -/
theorem collect_instant (hw : w.Instant answers?) {settings : Settings} {sources : List u.State}
    {inputs : List (List α)} {m : Merge L u} (hm : Merge.setUp L u settings sources = .ok m)
    (ha : List.Forall₂ w.ahead sources inputs) {batch : Nat} (hbatch : batch ≤ Credit.limit) :
    ∃ s, Yields w answers? m batch s := by
  have hfresh := Merge.setUp_fresh hm
  have honCourse := hfresh.onCourse hw ha
  have hn : 0 < max batch 1 := by omega
  have hl : max batch 1 ≤ Credit.limit := Nat.max_le.2 ⟨hbatch, by decide⟩
  have hg := gathers_start hfresh batch
  have hhungry : Hungry w answers? m ((start m).beginCollect batch) (max batch 1) := by
    refine ⟨⟨⟨_, rfl, hg.batches, hg.receiving, hg.gathered, hg.balance⟩, honCourse⟩, ?_, ?_, ?_⟩
    · show m.stage.isFinal = false
      rw [hfresh.stage]
      rfl
    · show m.credit.isPositive = false
      rw [hfresh.credit]
      rfl
    · show m.link.signals = []
      rw [hfresh.link]
      rfl
  have heffort : m.effort answers? = 8 * (m.dues answers?).sum + 7 := by
    simp [Merge.effort, Merge.toil, Merge.rank, hfresh.stage, hfresh.link, Link.fresh]
  have hcomes : ∃ s, Comes w answers? m ((start m).beginCollect batch) (Session.fuel answers? (start m)) s := by
    have hrounds : m.effort answers? ≤ Session.fuel answers? (start m) :=
      Merge.effort_le_fuel hw (s := start m) honCourse.listed
    obtain ⟨rounds, hr⟩ : ∃ k, Session.fuel answers? (start m) = k + 2 :=
      ⟨Session.fuel answers? (start m) - 2, by omega⟩
    obtain ⟨s', hleads, hgo, h', hends⟩ := hhungry.turn hw hn hl
    rw [hr]
    rcases hends with hf | ⟨hhungry', hst', hle, -⟩
    · exact ⟨s', hleads, h'.onCourse, hf, (hgo _).trans (h'.conclude hf _ rounds)⟩
    · have hle : 8 * (s'.merge.dues answers?).sum + 2 ≤ m.effort answers? + 1 := hle
      obtain ⟨s'', hcomes⟩ := hhungry'.collects hw hn hl (rounds + 1) hst' (by omega)
      exact ⟨s'', hleads.trans hcomes.leads, hcomes.onCourse, hcomes.finished, (hgo _).trans hcomes.result⟩
  obtain ⟨s, hcomes⟩ := hcomes
  have hbegin : Leads (start m) ((start m).beginCollect batch) :=
    (start m).leads_perform (.beginCollect batch) trivial
  refine ⟨s, hbegin.trans hcomes.leads, hcomes.onCourse, hcomes.finished, ?_⟩
  have hverdict : (s.perform .pollCollector).merge.verdict? = s.merge.verdict? := by
    unfold Merge.verdict?
    rw [((perform_changes s .pollCollector).rests hcomes.finished).2]
  have hrunning : ((start m).beginCollect batch).isRunning = true := by
    show (!m.stage.isFinal) = true
    rw [hfresh.stage]
    rfl
  unfold collect
  dsimp only
  rw [hcomes.result, hrunning, hverdict]
  cases s.merge.verdict? <;> rfl

/-- A run that nobody withdraws and that ends in no error is completed, and everything that it has sent is collected. -/
theorem Yields.completed {m : Merge L u} {batch : Nat} (h : Yields w answers? m batch s) (hup : s.merge.Upright) :
    s.merge.verdict? = some (.ok .completed) ∧
    (start m).collect (Session.fuel answers?) (Session.fuel answers? (start m)) batch =
      (.ended (.ok s.merge.sent), .ended (.ok .completed), s.perform .pollCollector) := by
  have hverdict : s.merge.verdict? = some (.ok .completed) := by
    have hnoError : ∀ e, s.merge.verdict? ≠ some (.error e) := by
      cases hup with
      | sound _ hnone => exact hnone
      | failed p c before after heq =>
        have hplain := h.onCourse.plain (.polled p (.failed c)) (by rw [heq]; simp)
        exact hplain.elim
    have hover := h.finished
    have hkept := h.onCourse.steady.kept
    have huncancelled := h.onCourse.steady.uncancelled
    unfold Merge.verdict? at hnoError ⊢
    rcases hst : s.merge.stage with _ | _ | _ | _ | _ | (e | (_ | _)) | _ <;> simp_all [Stage.isFinal]
  refine ⟨hverdict, ?_⟩
  rw [h.result, Merge.collection, hverdict]
  rfl

theorem Leads.spared (h : Leads s s') : ∃ moves : List (Move u), (∀ mv ∈ moves, w.Spares mv) ∧ s.play moves = s' := by
  obtain ⟨moves, hturns, hplay⟩ := h
  refine ⟨moves, fun mv hmv => ?_, hplay⟩
  have := hturns mv hmv
  cases mv <;> first | exact trivial | exact this.elim

end Session

/-! ## Set-up -/

/-- A strategy that declares the inlets in ascending order can run the merge. -/
theorem Merge.exists_setUp {settings : Settings} {sources : List u.State}
    (h : (L.handles L.fresh sources.length).1 = .ok (List.range sources.length)) :
    ∃ m, Merge.setUp L u settings sources = .ok m := by
  have hdeclare : (Merge.declare L sources.length).1 = .ok (List.range sources.length) := by
    rw [Merge.declare_of_handles h, misfit?_eq_none_iff.2 (.refl _)]
  unfold Merge.setUp
  split
  · rename_i heq
    rw [heq] at hdeclare
    cases hdeclare
  · exact ⟨_, rfl⟩

end StreamMerge
