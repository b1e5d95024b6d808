import StreamMerge.Proofs.Promptness
import StreamMerge.Proofs.Transitions
import StreamMerge.Proofs.Trimming

/-!
# Every poll comes back

Each event of an inlet is an element that is handed over, or the one end or failure that closes the inlet, so a source
with a forecast of `n` elements brings `n + 1` events at most (`Merge.Tallied.count_le`). Between two events a run takes
a bounded number of steps, but for those that take signals, and no attempt sends it more than one signal that it will
still take. So every poll ends, whatever the strategy does and however its sources put it off, and how many steps it
takes is known beforehand (`Session.Staged.returns`).
-/
namespace StreamMerge

variable {α β : Type} {L : Strategy α β} {u : Source α}

/-- Members of a list of which each stands in it at most as often as it may. -/
theorem length_le_sum_of_count : ∀ (ps ns : List Nat), (∀ p ∈ ps, p < ns.length) →
    (∀ p n, ns[p]? = some n → ps.count p ≤ n) → ps.length ≤ ns.sum
  | [], _, _, _ => Nat.zero_le _
  | p :: ps, ns, hlt, hle => by
    have hp : p < ns.length := hlt p List.mem_cons_self
    have hcount := hle p ns[p] (List.getElem?_eq_getElem hp)
    rw [List.count_cons_self] at hcount
    obtain ⟨k, hk⟩ : ∃ k, ns[p] = k + 1 := ⟨ns[p] - 1, by omega⟩
    have hsum := Merge.sum_set_of_getElem? (show ns[p]? = some (k + 1) by rw [← hk, List.getElem?_eq_getElem hp])
    have ih := length_le_sum_of_count ps (ns.set p k)
      (fun q hq => by rw [List.length_set]; exact hlt q (List.mem_cons_of_mem p hq)) fun q n hn => by
        rw [List.getElem?_set] at hn
        by_cases hq : p = q
        · subst hq
          simp only [if_true, hp] at hn
          obtain rfl := Option.some.inj hn
          omega
        · rw [if_neg hq] at hn
          have hothers := hle q n hn
          rwa [List.count_cons_of_ne hq] at hothers
    rw [List.length_cons]
    omega

namespace Merge

/-! ## How many events there can be -/

/-- How many events of `p` show in what was handed over and in how the inlet was closed. -/
def brought (m : Merge L u) (p : InletId) : Nat :=
  (m.handed p).length + ((m.status? p).bind (InletStatus.answer? (α := α))).toList.length

/-- The events that were taken up are events of inlets, and show there. -/
structure Tallied (m : Merge L u) : Prop where
  lt : ∀ e ∈ m.arrivals, e.1 < m.inlets.length
  count : ∀ p, (m.arrivals.map Prod.fst).count p = m.brought p

section
variable {m m' : Merge L u} {p : InletId} {a : Arrival α}

theorem bind_answer?_release (status : Option InletStatus) :
    (status.map InletStatus.release).bind (InletStatus.answer? (α := α)) = status.bind InletStatus.answer? := by
  cases status with
  | none => rfl
  | some t => exact t.answer?_release

theorem Keeps.brought (h : Keeps m m') (p : InletId) : m'.brought p = m.brought p := by
  unfold Merge.brought
  rcases h.status p with hp | ⟨-, hp⟩
  · rw [h.handed, hp]
  · rw [h.handed, hp, bind_answer?_release]

theorem Accepts.brought (h : Accepts m p a m') (hb : m.Balanced) (hc : m.Coherent) (k : InletId) :
    m'.brought k = m.brought k + if k = p then 1 else 0 := by
  have hhandles := h.handles hb hc
  have hstatus : (m'.status? k).bind (InletStatus.answer? (α := α)) =
      (if k = p then some a.status else m.status? k).bind InletStatus.answer? := by
    rcases h.status hb k with hk | hk
    · rw [hk]
    · rw [hk, bind_answer?_release]
  unfold Merge.brought
  rw [hstatus, hhandles.handed k, List.length_append]
  by_cases hk : k = p
  · subst hk
    rw [inletIs_isOpen_iff.1 hhandles.isOpen]
    cases a <;> simp [Arrival.element?, Arrival.status, InletStatus.answer?]
  · simp [hk]

theorem Tallied.accepts (h : m.Tallied) (ha : Accepts m p a m') (hb : m.Balanced) (hc : m.Coherent)
    (hcount : m'.inlets.length = m.inlets.length) : m'.Tallied := by
  have harrivals := ha.arrivals hb
  constructor
  · intro e he
    rw [harrivals] at he
    rw [hcount]
    rcases List.mem_append.1 he with he | he
    · exact h.lt e he
    · rw [List.mem_singleton.1 he]
      exact lt_of_isOpen (ha.handles hb hc).isOpen
  · intro k
    rw [harrivals, List.map_append, List.count_append, h.count k, ha.brought hb hc k, List.map_singleton,
      List.count_singleton]
    by_cases hk : k = p
    · simp [hk]
    · simp [hk, Ne.symm hk]

/-- Every change keeps the tally. -/
theorem Change.tallied (h : Change m m') (hb : m.Balanced) (hc : m.Coherent) (hm : m.Tallied) : m'.Tallied := by
  rcases and_or_right.2 ⟨h.keeps_or_accepts, h.untold_or_accepts⟩ with ⟨hkeeps, huntold⟩ | ⟨p, a, ha⟩
  · have harrivals := arrivals_of_extends huntold
    constructor
    · rw [harrivals, h.count]
      exact hm.lt
    · intro p
      rw [harrivals, hkeeps.brought, hm.count]
  · exact hm.accepts ha hb hc h.count

theorem Fresh.tallied {sources : List u.State} (h : Fresh m sources) : m.Tallied := by
  have hnone : m.arrivals = [] := by rw [arrivals, h.history]; rfl
  constructor
  · rw [hnone]
    exact fun e he => by cases he
  · intro p
    have hstatus : (m.status? p).bind (InletStatus.answer? (α := α)) = none := by
      cases hs : m.status? p with
      | none => rfl
      | some status =>
        have hlt := isSome_status?.1 (show (m.status? p).isSome = true by rw [hs]; rfl)
        rw [h.status? hlt] at hs
        obtain rfl := Option.some.inj hs
        rfl
    rw [hnone, Merge.brought, hstatus, handed, h.history]
    rfl

variable {w : u.Forecast} {forecasts : List (List α)}

/-- An inlet brings as many events as it has elements ahead and one more, at most. -/
theorem Tallied.count_le (h : m.Tallied) (hb : m.Balanced) (hs : m.Supplied w forecasts)
    (hlen : m.inlets.length = forecasts.length) {xs : List α} (hxs : forecasts[p]? = some xs) :
    (m.arrivals.map Prod.fst).count p ≤ xs.length + 1 := by
  have hp : p < m.inlets.length := by
    rw [hlen]
    exact (List.getElem?_eq_some_iff.1 hxs).1
  obtain ⟨rest, hrest, -⟩ := hs.rest hb hxs (isSome_status?.2 hp)
  have hhanded : (m.handed p).length ≤ xs.length := by
    rw [hrest, List.length_append]
    exact Nat.le_add_right _ _
  have hclosed : ((m.status? p).bind (InletStatus.answer? (α := α))).toList.length ≤ 1 := by
    cases (m.status? p).bind (InletStatus.answer? (α := α)) <;> simp
  rw [h.count, Merge.brought]
  omega

/-- How many events the sources bring at most, each as many as it has elements ahead and one more. -/
def eventsAhead (forecasts : List (List α)) : Nat := (forecasts.map fun xs => xs.length + 1).sum

theorem Tallied.arrivals_le (h : m.Tallied) (hb : m.Balanced) (hs : m.Supplied w forecasts)
    (hlen : m.inlets.length = forecasts.length) : m.arrivals.length ≤ eventsAhead forecasts := by
  have hle := length_le_sum_of_count (m.arrivals.map Prod.fst) (forecasts.map fun xs => xs.length + 1)
    (fun p hp => by
      obtain ⟨e, he, rfl⟩ := List.mem_map.1 hp
      rw [List.length_map, ← hlen]
      exact h.lt e he)
    fun p n hn => by
      rw [List.getElem?_map] at hn
      obtain ⟨xs, hxs, rfl⟩ := Option.map_eq_some_iff.1 hn
      exact h.count_le hb hs hlen hxs
  rwa [List.length_map] at hle

end

/-! ## How many steps a poll can take -/

/-- A bound on the steps that a run with no more than `events` events still takes on its own: eight from one event to
the next, and one for each signal up to the first cancellation. -/
def remaining (m : Merge L u) (events : Nat) : Nat :=
  8 * (events - m.arrivals.length) + m.rank + (upToCancel m.link.signals).length

/-- The run does not go on by itself: it has ended, or it has to be polled again. -/
def Pauses (m : Merge L u) : Prop := m.stage.isFinal = true ∨ m.awake = false

/-- What is known of a run of sources with `forecasts` ahead. -/
structure Limited (w : u.Forecast) (forecasts : List (List α)) (m : Merge L u) : Prop where
  balanced : m.Balanced
  coherent : m.Coherent
  tallied : m.Tallied
  supplied : m.Supplied w forecasts
  count : m.inlets.length = forecasts.length

section
variable {m m' : Merge L u} {w : u.Forecast} {forecasts : List (List α)}

theorem Limited.step (h : m.Limited w forecasts) (ha : m.awake = true) : m.step.Limited w forecasts := by
  have hch := Change.step m ha
  have hsupplied : m.EachAccount (Account.SuppliedAt w forecasts) := fun p q hq xs hxs => h.supplied p q xs hq hxs
  have hworks := hsupplied.works Account.durable_supplied h.balanced (step_spec m).works
  exact ⟨h.balanced.acts hch.acts, hch.coherent h.coherent, hch.tallied h.balanced h.coherent h.tallied,
    fun p q xs hq hxs => hworks p q hq xs hxs, hch.count.trans h.count⟩

theorem length_upToCancel_le (signals : List Signal) : (upToCancel signals).length ≤ signals.length := by
  induction signals with
  | nil => exact Nat.le_refl _
  | cons signal rest ih =>
    cases signal with
    | request n => exact Nat.succ_le_succ ih
    | cancel => exact Nat.succ_le_succ (Nat.zero_le _)

/-- However often the sources call for cancellation, the run takes the first call only. -/
theorem length_upToCancel_seek (h : m.link.signals = []) (order : List InletId) :
    (upToCancel (m.seek order).2.link.signals).length ≤ 1 := by
  obtain ⟨n, hn⟩ := (frame_seek m order).signals
  rw [hn, h, List.nil_append]
  cases n with
  | zero => exact Nat.zero_le _
  | succ n => exact Nat.le_refl _

/-- **A step leaves less to do, or the run pauses.** -/
theorem Step.pauses_or_nears (h : Step m m') (hm : m.Limited w forecasts) (hr : m.stage.isFinal = false)
    (hm' : m'.Limited w forecasts) :
    m'.Pauses ∨ m'.remaining (eventsAhead forecasts) < m.remaining (eventsAhead forecasts) := by
  -- a step without an event has to lower the rank, or to take a signal
  have hgoes : m'.arrivals = m.arrivals →
      m'.rank + (upToCancel m'.link.signals).length < m.rank + (upToCancel m.link.signals).length →
      m'.remaining (eventsAhead forecasts) < m.remaining (eventsAhead forecasts) := by
    intro harrivals hlt
    unfold remaining
    rw [harrivals]
    omega
  have hfit := hm.coherent.fits
  cases h with
  | opens hst =>
    rw [hst] at hfit
    refine Or.inr (hgoes (arrivals_of_extends (extends_opening _ m ⟨id, id⟩ ⟨id, id⟩)) (Nat.add_lt_add_right ?_ _))
    simp [rank, hst, show m.unsent = none from hfit, log, note]
  | turns stage ht => exact Or.inr (hgoes rfl (Nat.add_lt_add_right (ht.rank hm.coherent) _))
  | starves aim => exact Or.inl (Or.inr rfl)
  | hears n rest _ hs =>
    refine Or.inr (hgoes (arrivals_of_extends (extends_note _ (e := .took (.request n)) ⟨id, id⟩)) (Nat.add_lt_add_left ?_ m.rank))
    show (upToCancel rest).length < _
    rw [hs]
    exact Nat.lt_succ_self _
  | delivers closing y haim _ _ hrec =>
    have hd := delivered_spec closing y hrec
    have hrank : m.rank = 5 := by
      rcases haim.stage with hst | hst
      · simp [rank, hst]
      · exact absurd hst hm.coherent.not_awaiting_deliver
    refine Or.inr (hgoes (arrivals_of_extends (hd.extends_of _ ⟨id, id⟩)) ?_)
    rw [rank_of_settling rfl hd.unsent, hd.link, hrank]
    exact Nat.add_lt_add_right (by decide : 4 < 5) _
  | tries m' hnil _ ht =>
    cases ht with
    | waits => exact Or.inl (Or.inr rfl)
    | accepts choice order p a q hst hp hq hbuf =>
      have hmore := (Accepts.found choice order q hst hp hq hbuf).arrivals hm.balanced
      have hle := hm'.tallied.arrivals_le hm'.balanced hm'.supplied hm'.count
      have hsignals := length_upToCancel_seek hnil order
      have hrank : m.rank = 1 := by simp [rank, hst]
      cases closes_dispatch ((m.seek order).2.putInlet p q.take.2) choice p a with
      | ended hfinal => exact Or.inl (Or.inl hfinal)
      | goesOn _ _ hlink =>
        rw [link_putInlet] at hlink
        have hrank' := rank_le (((m.seek order).2.putInlet p q.take.2).dispatch choice p a)
        refine Or.inr ?_
        unfold remaining
        rw [hmore, List.length_append, List.length_singleton] at hle
        rw [hmore, List.length_append, List.length_singleton, hlink, hrank]
        omega
  | ends m₁ v => exact Or.inl (Or.inl (by rw [(finish_spec m₁ v).stage]; rfl))
  | rests hf =>
    rw [hr] at hf
    cases hf

/-! ## Polls -/

theorem Pauses.advance (h : m.Pauses) (fuel : Nat) : m.advance fuel = m := by
  rcases h with hf | ha
  · exact advance_of_isFinal hf fuel
  · exact advance_of_asleep ha fuel

/-- The run goes on until it pauses: what remains to be done is fewer steps each time. -/
theorem Limited.advance_pauses : ∀ (fuel : Nat) {m : Merge L u}, m.Limited w forecasts →
    m.remaining (eventsAhead forecasts) ≤ fuel → (m.advance fuel).Pauses
  | 0, m, _, hle => by
    left
    cases hr : m.stage.isFinal with
    | true => exact hr
    | false =>
      have := rank_pos hr
      unfold remaining at hle
      omega
  | fuel + 1, m, hm, hle => by
    cases ha : m.awake with
    | false =>
      rw [advance_of_asleep ha]
      exact Or.inr ha
    | true =>
      cases hr : m.stage.isFinal with
      | true =>
        rw [advance_of_isFinal hr]
        exact Or.inl hr
      | false =>
        have hnext := hm.step ha
        rw [advance_succ ha]
        rcases (step_spec m).pauses_or_nears hm hr hnext with hpause | hlt
        · rw [hpause.advance]
          exact hpause
        · exact hnext.advance_pauses fuel (by omega)

theorem advance_add : ∀ (fuel more : Nat) (m : Merge L u), m.advance (fuel + more) = (m.advance fuel).advance more
  | 0, more, m => by rw [Nat.zero_add]; rfl
  | fuel + 1, more, m => by
    cases ha : m.awake with
    | false => simp only [advance_of_asleep ha]
    | true =>
      rw [Nat.add_right_comm, advance_succ ha, advance_succ ha]
      exact advance_add fuel more m.step

theorem remaining_le (m : Merge L u) (events : Nat) : m.remaining events ≤ 8 * events + 7 + m.link.signals.length := by
  have hrank := rank_le m
  have hsignals := length_upToCancel_le m.link.signals
  unfold remaining
  omega

/-- A poll comes to a pause, and more fuel changes nothing. -/
theorem Limited.poll_pauses (h : m.Limited w forecasts) {fuel : Nat}
    (hle : 8 * eventsAhead forecasts + 7 + m.link.signals.length ≤ fuel) :
    (m.poll fuel).Pauses ∧ ∀ more, m.poll (fuel + more) = m.poll fuel := by
  cases hf : m.stage.isFinal with
  | true =>
    have hstay : ∀ fuel, m.poll fuel = m := by
      intro fuel
      unfold poll
      rw [if_pos hf]
    rw [hstay fuel]
    exact ⟨Or.inl hf, fun more => hstay (fuel + more)⟩
  | false =>
    have hgo : ∀ fuel, m.poll fuel = advance fuel { m with awake := true, link := m.link.heed } := by
      intro fuel
      unfold poll
      rw [hf, if_neg Bool.false_ne_true]
    have hroused : Limited w forecasts { m with awake := true, link := m.link.heed } :=
      ⟨h.balanced, (Change.rouse m hf).coherent h.coherent, ⟨h.tallied.lt, h.tallied.count⟩, h.supplied, h.count⟩
    have hpause := hroused.advance_pauses fuel
      (Nat.le_trans (remaining_le { m with awake := true, link := m.link.heed } _) hle)
    rw [hgo fuel]
    refine ⟨hpause, fun more => ?_⟩
    rw [hgo, advance_add, hpause.advance]

end
end Merge

namespace Session

/-- The polls of a session come back, however often it is polled. -/
structure Returns (forecasts : List (List α)) (s : Session L u) : Prop where
  /-- With this many steps, the next poll comes to the point where the run has ended or has to wait, and it would not go
  any further with more of them. -/
  polls : ∀ fuel, 8 * Merge.eventsAhead forecasts + 7 + s.merge.link.signals.length ≤ fuel →
    (s.merge.poll fuel).Pauses ∧ ∀ more, s.merge.poll (fuel + more) = s.merge.poll fuel
  /-- No inlet has brought more events than it had elements ahead, and one. -/
  each : ∀ p xs, forecasts[p]? = some xs → (s.merge.arrivals.map Prod.fst).count p ≤ xs.length + 1
  events : s.merge.arrivals.length ≤ Merge.eventsAhead forecasts

theorem Staged.limited {w : u.Forecast} {forecasts : List (List α)} {s : Session L u} (h : s.Staged w forecasts) :
    s.merge.Limited w forecasts := by
  refine ⟨h.balanced, h.coherent, ?_, h.supplied, h.count⟩
  exact h.induction (motive := Merge.Tallied) (fun hm _ => (Merge.setUp_fresh hm).tallied)
    fun hch hb hc htally => hch.tallied hb hc htally

theorem returns_of_limited {w : u.Forecast} {forecasts : List (List α)} {s : Session L u}
    (h : s.merge.Limited w forecasts) : s.Returns forecasts where
  polls _ := h.poll_pauses
  each _ _ := h.tallied.count_le h.balanced h.supplied h.count
  events := h.tallied.arrivals_le h.balanced h.supplied h.count

/-- **Every poll comes back.** For every strategy, all sources that have finitely many elements ahead, and every order
of moves. -/
theorem Staged.returns {w : u.Forecast} {forecasts : List (List α)} {s : Session L u} (h : s.Staged w forecasts) :
    s.Returns forecasts :=
  returns_of_limited h.limited

/-- One source has to be waited for, and the other calls for cancellation. -/
theorem returns_scripted : ∃ m,
    Merge.setUp (Strategy.fair Nat) (scripted Nat) .standard
      [.ofItems [.element 1, .gate, .element 2], .ofItems [.pend 1, .element 3, .cancel, .element 4]] = .ok m ∧
    ((start m).play [.request 9, .poll 60, .poll 60]).Returns [[1, 2], [3, 4]] ∧
    ((start m).play [.request 9, .poll 60, .poll 60]).merge.arrivals =
      [(0, .element 1), (1, .element 3), (1, .element 4)] := by
  have hm : Merge.setUp (Strategy.fair Nat) (scripted Nat) .standard
      [.ofItems [.element 1, .gate, .element 2], .ofItems [.pend 1, .element 3, .cancel, .element 4]] = .ok _ := rfl
  refine ⟨_, hm, Staged.returns (w := Script.forecast Nat) (.play hm ?_ ?_), by decide⟩
  · exact .cons rfl (.cons rfl .nil)
  · simp [Source.Forecast.Spares]

end Session

/-! ## Scripts -/

/-- The script brings an element here. -/
def ScriptItem.isElement : ScriptItem α → Bool
  | .element _ | .forever _ => true
  | _ => false

/-- A script in which no element is repeated for ever has finitely many elements ahead, not more than it lists. -/
theorem Script.exists_forecast : ∀ (items : List (ScriptItem α)), (∀ x, .forever x ∉ items) →
    ∃ xs, elements? items = some xs ∧ xs.length ≤ items.countP ScriptItem.isElement
  | [], _ => ⟨[], rfl, Nat.le_refl _⟩
  | item :: rest, h => by
    obtain ⟨xs, hxs, hle⟩ := Script.exists_forecast rest fun x hx => h x (List.mem_cons_of_mem item hx)
    have hmore : xs.length ≤ (item :: rest).countP ScriptItem.isElement := by
      rw [List.countP_cons]
      omega
    cases item with
    | element x =>
      refine ⟨x :: xs, by rw [elements?, hxs]; rfl, ?_⟩
      rw [List.countP_cons_of_pos rfl]
      exact Nat.succ_le_succ hle
    | forever x => exact absurd List.mem_cons_self (h x)
    | failure c => exact ⟨[], rfl, Nat.zero_le _⟩
    | finish => exact ⟨[], rfl, Nat.zero_le _⟩
    | _ => exact ⟨xs, hxs, hmore⟩

/-- A merge of finite scripts: no source brings more than its script lists, whatever gates are opened from outside. -/
theorem Session.scripts_return {L : Strategy α β} {settings : Settings} {sources : List (Script α)}
    {m : Merge L (scripted α)} (hm : Merge.setUp L (scripted α) settings sources = .ok m)
    (hfinite : ∀ s ∈ sources, ∀ x, .forever x ∉ s.items) {moves : List (Move (scripted α))}
    (hspared : ∀ mv ∈ moves, (Script.forecast α).Spares mv) :
    ∃ forecasts, List.Forall₂ (fun (s : Script α) xs => xs.length ≤ s.items.countP ScriptItem.isElement) sources
      forecasts ∧ ((start m).play moves).Returns forecasts := by
  have hahead : ∀ s ∈ sources, ∃ xs, Script.elements? s.items = some xs ∧
      xs.length ≤ s.items.countP ScriptItem.isElement := fun s hs => Script.exists_forecast s.items (hfinite s hs)
  refine ⟨sources.map fun s => (Script.elements? s.items).getD [], ?_, returns_of_limited (Staged.limited
    (w := Script.forecast α) (.play hm ?_ hspared))⟩
  · refine List.forall₂_map_right_iff.2 (List.forall₂_same.2 fun s hs => ?_)
    obtain ⟨xs, hxs, hle⟩ := hahead s hs
    rw [hxs]
    exact hle
  · refine List.forall₂_map_right_iff.2 (List.forall₂_same.2 fun s hs => ?_)
    obtain ⟨xs, hxs, -⟩ := hahead s hs
    show Script.elements? s.items = some _
    rw [hxs]
    rfl

end StreamMerge
