import StreamMerge.Proofs.Backpressure
import StreamMerge.Proofs.Promptness

/-!
# Splitting demand

How a consumer splits its demand into requests does not matter to a merge of prompt sources: what the merge does
depends on the total alone, and with a larger total it does the same and then more (`Session.play_splits`). Two runs
may wait at different points, but both follow the bare run of the merge, each up to the point where that run halts for
what was asked for.
-/
namespace StreamMerge

variable {α β : Type} {L : Strategy α β} {u : Source α}

/-! ## Schedules -/

/-- The consumer asks for more, or the run is polled. -/
def Move.isDemand : Move u → Prop
  | .request _ | .poll _ => True
  | _ => False

/-- How many steps a run takes at most whose sources bring so many elements, without those that take signals. -/
def stamina (counts : List Nat) : Nat := 8 * (counts.map (· + 1)).sum + 7

/-- Requests and polls in any order, and then a poll that is given enough steps to go on until the run rests. -/
inductive Schedule (counts : List Nat) : List (Move u) → Prop
  | mk (moves : List (Move u)) (fuel : Nat) : (∀ mv ∈ moves, mv.isDemand) → stamina counts + moves.length ≤ fuel →
      Schedule counts (moves ++ [.poll fuel])

namespace Merge

/-! ## Credit granted -/

theorem granted_of_extends {m m' : Merge L u} (h : Extends (fun e => e.granted? = none) m m') :
    m'.granted = m.granted :=
  congrArg List.sum (h.filterMap_eq fun _ he => he)

theorem Tries.granted {m m' : Merge L u} (h : Tries m m') (hb : m.Balanced) : m'.granted = m.granted := by
  rcases h.serves hb with hx | ⟨choice, p, a, reads, outcome, hs⟩
  · refine granted_of_extends (hx.mono fun e he => ?_)
    cases e <;> first | rfl | cases he
  · exact granted_of_serves hs

/-- As long as a run goes on, the credit that was asked for is either taken or waits to be taken. -/
theorem Step.pledged {m m' : Merge L u} (h : Step m m') (hb : m.Balanced) {ns : List Nat} (hd : m.Due ns)
    (hr : m'.stage.isFinal = false) : m'.pledged = m.pledged := by
  have hsame : ∀ m' : Merge L u, m'.granted = m.granted → m'.link.signals = m.link.signals →
      m'.pledged = m.pledged := by
    intro m' hg hs
    show m'.granted + (m'.link.signals.map Signal.amount).sum = _
    rw [hg, hs]
    rfl
  cases h with
  | opens => exact hsame _ (granted_of_extends (extends_opening (fun e => e.granted? = none) m rfl rfl)) rfl
  | turns => rfl
  | starves => rfl
  | hears n rest _ hs =>
    show (({ m with credit := m.credit.grant n, link := { m.link with signals := rest } } : Merge L u).note
      (.took (.request n))).granted + (rest.map Signal.amount).sum = m.granted + (m.link.signals.map Signal.amount).sum
    rw [hs, granted, history_note, List.filterMap_append, List.sum_append, List.map_cons, List.sum_cons]
    show m.granted + n + _ = m.granted + (n + _)
    omega
  | delivers closing y _ _ _ hrec =>
    have hs := delivered_spec closing y hrec
    exact hsame _ (granted_of_extends (hs.extends_of (fun e => e.granted? = none) rfl)) (by rw [hs.link])
  | tries m' _ _ ht =>
    refine hsame _ (ht.granted hb) ?_
    cases ht with
    | waits choice order => exact (hd.reads_seek order).signals
    | accepts choice order p a q =>
      cases closes_dispatch ((m.seek order).2.putInlet p q.take.2) choice p a with
      | ended hf =>
        rw [hr] at hf
        cases hf
      | goesOn _ _ hl => rw [hl, link_putInlet, (hd.reads_seek order).signals]
  | ends m₁ v =>
    rw [(finish_spec m₁ v).stage] at hr
    cases hr
  | rests => rfl

/-! ## Runs on demand -/

/-- How a merge stands that started as `origin`: `asked` elements were asked for in all, and the run rests after at
most `bound` steps. -/
structure Underway (origin : Merge L u) (asked bound : Nat) (m : Merge L u) : Prop where
  balanced : m.Balanced
  coherent : m.Coherent
  solvent : m.books.Solvent
  attached : m.Attached
  wanted : m.Wanted
  pledged_le : m.pledged ≤ asked
  pledged : m.stage.isFinal = false → m.pledged = asked
  due : ∃ ns, m.Due ns ∧ m.toil ns ≤ bound
  follows : ∃ k, Follows origin m.granted k m

section
variable {origin m : Merge L u} {asked bound : Nat}

/-- With credit left, not all that was granted is delivered. -/
theorem sent_lt_granted (h : m.books.Solvent) (hc : m.credit.isPositive = true) : m.sent.length < m.granted := by
  have hpos := Credit.isPositive_iff _ |>.1 hc
  have hbound : m.credit.remaining + m.books.flushed ≤ m.granted := h.bounded
  have hle : m.sent.length ≤ m.books.flushed := h.delivered_le
  omega

theorem Underway.step (h : Underway origin asked bound m) (ha : m.awake = true) :
    Underway origin asked bound m.step := by
  cases hr : m.stage.isFinal with
  | true =>
    rw [step_of_isFinal hr]
    exact h
  | false =>
    have hstep := step_spec m
    have hbooks := hstep.books h.balanced h.coherent
    obtain ⟨ns, hd, hle⟩ := h.due
    obtain ⟨ns', hp⟩ := hstep.proceeds h.balanced h.coherent ha hr hd
    obtain ⟨k, hk⟩ := h.follows
    obtain ⟨k', hk'⟩ := hk.step h.wanted (sent_lt_granted h.solvent)
    exact {
      balanced := h.balanced.acts hstep.acts
      coherent := hstep.coherent h.coherent ha
      solvent := h.solvent.acts hbooks
      attached := hstep.attached h.attached
      wanted := hstep.wanted h.wanted hd
      pledged_le := Nat.le_trans (Books.pledged_acts hbooks) h.pledged_le
      pledged := fun hr' => (hstep.pledged h.balanced hd hr').trans (h.pledged hr)
      due := ⟨ns', hp.due, Nat.le_trans hp.toil hle⟩
      follows := ⟨k', hk'.mono (Books.granted_le_acts hbooks)⟩ }

theorem Underway.advance : ∀ (fuel : Nat) {m : Merge L u}, Underway origin asked bound m →
    Underway origin asked bound (m.advance fuel)
  | 0, _, h => h
  | fuel + 1, m, h => by
    unfold Merge.advance
    split
    · rename_i ha
      exact Underway.advance fuel (h.step ha)
    · exact h

theorem Underway.rouse (h : Underway origin asked bound m) (hr : m.stage.isFinal = false) :
    Underway origin asked bound { m with awake := true, link := m.link.heed } := by
  have hrouse : Change m { m with awake := true, link := m.link.heed } := .rouse m hr
  obtain ⟨ns, hd, hle⟩ := h.due
  obtain ⟨k, hk⟩ := h.follows
  exact ⟨h.balanced.acts hrouse.acts, hrouse.coherent h.coherent, h.solvent, h.attached,
    ⟨h.wanted.receiving, h.wanted.senders, h.wanted.signals⟩, h.pledged_le, h.pledged, ⟨ns, hd.congr rfl, hle⟩,
    ⟨k, hk.here, hk.unhalted⟩⟩

theorem Underway.poll (h : Underway origin asked bound m) (fuel : Nat) :
    Underway origin asked bound (m.poll fuel) := by
  unfold Merge.poll
  split
  · exact h
  · rename_i hr
    exact (h.rouse (eq_false_of_ne_true hr)).advance fuel

/-- A poll that is given enough steps goes on until the run rests. -/
theorem Underway.poll_rests (h : Underway origin asked bound m) {fuel : Nat} (hf : bound ≤ fuel) :
    (m.poll fuel).Rests := by
  unfold Merge.poll
  split
  · rename_i hr
    exact .ended hr
  · rename_i hr
    have h' := h.rouse (eq_false_of_ne_true hr)
    obtain ⟨ns, hd, hle⟩ := h'.due
    exact advance_rests fuel rfl (eq_false_of_ne_true hr) h'.wanted h'.balanced h'.coherent hd (Nat.le_trans hle hf)

theorem Underway.relax (h : Underway origin asked bound m) {bound' : Nat} (hle : bound ≤ bound') :
    Underway origin asked bound' m := by
  obtain ⟨ns, hd, htoil⟩ := h.due
  exact { h with due := ⟨ns, hd, Nat.le_trans htoil hle⟩ }

/-- A request is one more signal to take; after the end of the run it is lost. -/
theorem Underway.request (h : Underway origin asked bound m) (n : Nat) :
    Underway origin (asked + n) (bound + 1) { m with link := m.link.send (.request n) } := by
  obtain ⟨ns, hd, hle⟩ := h.due
  obtain ⟨k, hk⟩ := h.follows
  unfold Link.send
  by_cases ha : m.link.attached = true
  · rw [if_pos ha]
    have hacted := Link.acted_send m.link (.request n)
    unfold Link.send at hacted
    rw [if_pos ha] at hacted
    have hch : Change m { m with
      link := { m.link with signals := m.link.signals ++ [.request n], woken := true } } := .relink m _ hacted.around
    have hpledged : m.granted + ((m.link.signals ++ [Signal.request n]).map Signal.amount).sum = m.pledged + n := by
      show _ = m.granted + (m.link.signals.map Signal.amount).sum + n
      simp [Signal.amount, Nat.add_assoc]
    exact {
      balanced := h.balanced.acts hch.acts
      coherent := hch.coherent h.coherent
      solvent := hch.solvent h.balanced h.coherent h.solvent
      attached := hch.attached h.attached
      wanted := ⟨h.wanted.receiving, h.wanted.senders, by simpa using h.wanted.signals⟩
      pledged_le := Nat.le_trans (Nat.le_of_eq hpledged) (Nat.add_le_add_right h.pledged_le n)
      pledged := fun hr => hpledged.trans (congrArg (· + n) (h.pledged hr))
      due := ⟨ns, hd.congr rfl, by
        show 8 * ns.sum + m.rank + (m.link.signals ++ [Signal.request n]).length ≤ bound + 1
        unfold toil at hle
        rw [List.length_append, List.length_singleton]
        omega⟩
      follows := ⟨k, hk.here, hk.unhalted⟩ }
  · rw [if_neg ha]
    have hpledged_le : m.pledged ≤ asked + n := Nat.le_trans h.pledged_le (Nat.le_add_right _ _)
    exact { h.relax (Nat.le_succ bound) with
      pledged_le := hpledged_le
      pledged := fun hr => absurd (h.attached hr) ha }

/-- A merge of prompt sources starts underway. -/
theorem Fresh.underway {sources : List u.State} (h : Fresh m sources) {counts : List Nat}
    (hs : List.Forall₂ u.Prompt sources counts) : Underway m 0 (stamina counts) m := by
  have hp : m.pledged = 0 := by
    show (m.history.filterMap Entry.granted?).sum + (m.link.signals.map Signal.amount).sum = 0
    rw [h.history, h.link]
    rfl
  have hdue : m.Due (counts.map (· + 1)) := by
    intro p q hq
    rw [h.inlets, List.getElem?_map] at hq
    obtain ⟨s, hsrc, rfl⟩ := Option.map_eq_some_iff.1 hq
    obtain ⟨hlt, rfl⟩ := List.getElem?_eq_some_iff.1 hsrc
    have hlt' : p < counts.length := hs.length_eq ▸ hlt
    exact ⟨counts[p] + 1, by rw [List.getElem?_map, List.getElem?_eq_getElem hlt']; rfl,
      Inlet.due_new (hs.get hlt hlt')⟩
  exact {
    balanced := h.balanced
    coherent := h.coherent
    solvent := h.solvent
    attached := fun _ => by rw [h.link]; rfl
    wanted := ⟨by rw [h.link]; rfl, by rw [h.link]; exact Nat.one_ne_zero, by rw [h.link]; exact List.not_mem_nil⟩
    pledged_le := Nat.le_of_eq hp
    pledged := fun _ => hp
    due := ⟨_, hdue, by
      have hrank : m.rank = 7 := by unfold rank; rw [h.stage]
      unfold toil stamina
      rw [hrank, h.link]
      exact Nat.le_refl _⟩
    follows := ⟨0, rfl, fun j hj => absurd hj (Nat.not_lt_zero j)⟩ }

/-- A run that rests is where its bare run halts for what was asked for. -/
theorem Underway.halts (h : Underway origin asked bound m) (hr : m.Rests) (hlimit : asked ≤ Credit.limit)
    (hflushed : m.sent.length = m.books.flushed) : m.bare.Halts asked := by
  cases hr with
  | ended hf => exact Or.inl ((isFinal_bare m).trans hf)
  | starved _ hst hc hs =>
    refine Or.inr ⟨by show m.stage.bare = _; rw [hst]; rfl, ?_⟩
    have hp : m.granted + m.link.waiting = asked := h.pledged (by rw [hst]; rfl)
    have hw : m.link.waiting = 0 := by unfold Link.waiting; rw [hs]; rfl
    have hexact : m.credit.remaining + m.books.flushed = m.granted := h.solvent.exact (by
      show m.granted ≤ _
      omega)
    have hzero : ¬ 0 < m.credit.remaining := by
      rw [← Credit.isPositive_iff, hc]
      exact Bool.false_ne_true
    rw [sent_bare, hflushed]
    omega

end

end Merge

namespace Session

/-- A session in which nothing but demands has been made so far. -/
structure Underway (origin : Merge L u) (asked bound : Nat) (s : Session L u) : Prop where
  consumer : s.consumer = .present false
  merge : Merge.Underway origin asked bound s.merge

theorem Underway.perform {origin : Merge L u} {asked bound : Nat} {s : Session L u} (h : Underway origin asked bound s)
    {mv : Move u} (hmv : mv.isDemand) : Underway origin (asked + s.asks mv) (bound + 1) (s.perform mv) := by
  cases mv with
  | request n =>
    by_cases hn : n = 0
    · have hs : s.perform (.request n) = s := by
        simp only [Session.perform, Session.request, h.consumer, if_pos hn]
      rw [hs, show s.asks (.request n) = 0 from hn]
      exact ⟨h.consumer, h.merge.relax (Nat.le_succ bound)⟩
    · have hs : s.perform (.request n) = s.relink (·.send (.request n)) := by
        simp only [Session.perform, Session.request, h.consumer, if_neg hn]
      rw [hs]
      exact ⟨h.consumer, h.merge.request n⟩
  | poll fuel => exact ⟨h.consumer, (h.merge.poll fuel).relax (Nat.le_succ bound)⟩
  | _ => exact hmv.elim

theorem Underway.play {origin : Merge L u} : ∀ (moves : List (Move u)) {asked bound : Nat} {s : Session L u},
    Underway origin asked bound s → (∀ mv ∈ moves, mv.isDemand) →
    Underway origin (asked + s.asked moves) (bound + moves.length) (s.play moves)
  | [], _, _, _, h, _ => h
  | mv :: moves, asked, bound, s, h, hmv => by
    have hrest := Underway.play moves (h.perform (hmv mv (by simp))) fun mv' h' => hmv mv' (List.mem_cons_of_mem mv h')
    rw [play_cons, Session.asked, List.length_cons, ← Nat.add_assoc, Nat.add_comm moves.length, ← Nat.add_assoc]
    exact hrest

/-- Where a schedule leads: the run rests, at the point where the bare run of its merge halts for what was asked
for. -/
theorem play_follows {settings : Settings} {sources : List u.State} {m : Merge L u}
    (hm : Merge.setUp L u settings sources = .ok m) {counts : List Nat} (hs : List.Forall₂ u.Prompt sources counts)
    {moves : List (Move u)} (h : Schedule counts moves) (hlimit : (start m).asked moves ≤ Credit.limit) :
    ((start m).play moves).merge.Rests ∧ ((start m).play moves).merge.bare.Halts ((start m).asked moves) ∧
    ∃ k, Merge.Follows m ((start m).asked moves) k ((start m).play moves).merge := by
  have hstart : Underway m 0 (stamina counts) (start m) := ⟨rfl, (Merge.setUp_fresh hm).underway hs⟩
  cases h with
  | mk moves fuel hmoves hfuel =>
    have hasked : (start m).asked (moves ++ [.poll fuel]) = (start m).asked moves := asked_append moves _ _
    have hbefore := (hstart.play moves hmoves).merge
    rw [Nat.zero_add] at hbefore
    have hafter := hbefore.poll fuel
    have hrests := hbefore.poll_rests hfuel
    have hflushed := Merge.delivered_eq_flushed hm (moves ++ [.poll fuel])
    rw [play_append] at hflushed
    rw [hasked] at hlimit ⊢
    rw [play_append]
    obtain ⟨k, hk⟩ := hafter.follows
    exact ⟨hrests, hafter.halts hrests hlimit (hflushed hafter.wanted.receiving), k,
      hk.mono (Nat.le_trans (Nat.le_add_right _ _) hafter.pledged_le)⟩

/-- The session `s'`, in which `asked'` elements were asked for, has done what `s` has done for `asked` of them, and
what follows. -/
structure Prolongs (s s' : Session L u) (asked asked' : Nat) : Prop where
  /-- Both runs rest: they have ended, or have delivered all that was asked for. -/
  rests : s.merge.Rests ∧ s'.merge.Rests
  /-- Whatever the first has done, the second has done first, in the same order: it has polled and released the same
  sources, called the strategy alike and delivered the same. -/
  doings : s.merge.doings <+: s'.merge.doings
  /-- If no more was asked for, it has done nothing else. -/
  same : asked = asked' → s.merge.doings = s'.merge.doings

/-- **How demand is split into requests does not matter.** For every strategy and all prompt sources. -/
theorem play_splits {settings : Settings} {sources : List u.State} {m : Merge L u}
    (hm : Merge.setUp L u settings sources = .ok m) {counts : List Nat} (hs : List.Forall₂ u.Prompt sources counts)
    {moves moves' : List (Move u)} (h : Schedule counts moves) (h' : Schedule counts moves')
    (hle : (start m).asked moves ≤ (start m).asked moves') (hlimit : (start m).asked moves' ≤ Credit.limit) :
    ((start m).play moves).Prolongs ((start m).play moves') ((start m).asked moves) ((start m).asked moves') := by
  obtain ⟨hrests, hhalts, k, hk⟩ := play_follows hm hs h (Nat.le_trans hle hlimit)
  obtain ⟨hrests', hhalts', k', hk'⟩ := play_follows hm hs h' hlimit
  have hdoings : ∀ {demand k : Nat} {n : Merge L u}, Merge.Follows m demand k n → n.doings = (m.bareRun k).doings :=
    fun {_ _ n} hk => by rw [← hk.here, Merge.doings_bare]
  refine ⟨⟨hrests, hrests'⟩, ?_, fun heq => ?_⟩
  · rw [hdoings hk, hdoings hk']
    exact Merge.doings_bareRun_initial m (hk.le hk' hle hhalts')
  · have hkk : k = k' := Nat.le_antisymm (hk.le hk' hle hhalts') (hk'.le hk (Nat.le_of_eq heq.symm) hhalts)
    rw [hdoings hk, hdoings hk', hkk]

/-- Asked for two elements at once, a merge does what it does when it is asked for three of them one by one; then it
stops. -/
theorem play_splits_fair : ∃ m,
    Merge.setUp (Strategy.fair Nat) (scripted Nat) .standard [.ofList [1, 3], .ofList [2]] = .ok m ∧
    List.Forall₂ (scripted Nat).Prompt [.ofList [1, 3], .ofList [2]] [2, 1] ∧
    Schedule (u := scripted Nat) [2, 1] [.request 2, .poll 60] ∧
    Schedule (u := scripted Nat) [2, 1] [.request 1, .poll 5, .request 2, .poll 60] ∧
    ((start m).play [.request 2, .poll 60]).Prolongs
      ((start m).play [.request 1, .poll 5, .request 2, .poll 60]) 2 3 ∧
    ((start m).play [.request 2, .poll 60]).merge.sent = [1, 2] ∧
    ((start m).play [.request 1, .poll 5, .request 2, .poll 60]).merge.sent = [1, 2, 3] := by
  have hm : Merge.setUp (Strategy.fair Nat) (scripted Nat) .standard [.ofList [1, 3], .ofList [2]] = .ok _ := rfl
  have hs : List.Forall₂ (scripted Nat).Prompt [.ofList [1, 3], .ofList [2]] [2, 1] :=
    .cons (Script.prompt_ofList [1, 3]) (.cons (Script.prompt_ofList [2]) .nil)
  have h : Schedule (u := scripted Nat) [2, 1] [.request 2, .poll 60] :=
    .mk [.request 2] 60 (by simp [Move.isDemand]) (by decide)
  have h' : Schedule (u := scripted Nat) [2, 1] [.request 1, .poll 5, .request 2, .poll 60] :=
    .mk [.request 1, .poll 5, .request 2] 60 (by simp [Move.isDemand]) (by decide)
  exact ⟨_, hm, hs, h, h', play_splits hm hs h h' (by decide) (by decide), rfl, rfl⟩

end Session
end StreamMerge
