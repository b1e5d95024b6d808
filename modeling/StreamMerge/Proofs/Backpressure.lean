import StreamMerge.Proofs.Books

/-!
# Backpressure

A merge reads only on credit, and credit comes only from those who ask for it: no more is ever taken than was asked
for in the course of a play, and no more elements are delivered (`Session.play_funded`).
-/
namespace StreamMerge

variable {α β : Type} {L : Strategy α β} {u : Source α}

namespace Merge

/-! ## Reading on credit -/

/-- A source is polled, and an event taken up, only while there is credit. -/
theorem Step.reads {m m' : Merge L u} (h : Step m m') (hc : m.Coherent) :
    Extends (fun e => e.isPoll ∨ e.isArrival → 0 < m.credit.remaining) m m' := by
  rcases h.aside_or_tries with ha | htry
  · refine ha.history.mono fun e he hr => ?_
    cases e with
    | polled => cases he
    | arrived => cases he
    | _ => rcases hr with hr | hr <;> cases hr
  · have hpos : 0 < m.credit.remaining := by
      have hf := hc.fits
      cases htry with
      | waits choice order hst => rw [hst] at hf; exact Credit.isPositive_iff _ |>.1 hf.2.1
      | accepts choice order p a q hst => rw [hst] at hf; exact Credit.isPositive_iff _ |>.1 hf.2.1
    exact htry.extends.mono fun _ _ _ => hpos

/-- Without credit nothing is read. -/
def Unread (m : Merge L u) : Prop := m.granted = 0 → ∀ e ∈ m.history, ¬ e.isPoll

theorem Unread.step {m m' : Merge L u} (h : m.Unread) (hstep : Step m m') (hb : m.Balanced) (hc : m.Coherent)
    (hs : m.books.Solvent) : m'.Unread := by
  intro hz e he hp
  have hle : m.granted ≤ m'.granted := Books.granted_le_acts (hstep.books hb hc)
  have hz' : m.granted = 0 := by omega
  obtain ⟨es, hes, hok⟩ := hstep.reads hc
  rw [hes] at he
  rcases List.mem_append.1 he with he | he
  · exact h hz' e he hp
  · have hpos := hok e he (Or.inl hp)
    have hbound : m.credit.remaining + m.books.flushed ≤ m.granted := hs.bounded
    omega

theorem Unread.change {m m' : Merge L u} (h : m.Unread) (hch : Change m m') (hb : m.Balanced) (hc : m.Coherent)
    (hs : m.books.Solvent) : m'.Unread := by
  cases hch with
  | step => exact h.step (step_spec m) hb hc hs
  | abandon =>
    intro hz e he hp
    obtain ⟨es, hes, hok⟩ := extends_releaseAll m
    have hg : m.releaseAll.granted = m.granted :=
      congrArg List.sum ((extends_releaseAll m).filterMap_eq fun e ⟨p, he⟩ => he ▸ rfl)
    have he : e ∈ m.releaseAll.history := he
    rw [hes] at he
    rcases List.mem_append.1 he with he | he
    · exact h (hg.symm.trans hz) e he hp
    · obtain ⟨p, rfl⟩ := hok e he
      cases hp
  | _ => exact h

theorem play_unread {settings : Settings} {sources : List u.State} {m : Merge L u}
    (hm : setUp L u settings sources = .ok m) (moves : List (Move u)) :
    ((Session.start m).play moves).merge.Unread :=
  (play_invariant (motive := fun m => m.books.Solvent ∧ m.Unread) hm
    ⟨(setUp_fresh hm).solvent, fun _ e he => by rw [(setUp_fresh hm).history] at he; cases he⟩
    (fun h hb hc ⟨hs, hu⟩ => ⟨h.solvent hb hc hs, hu.change h hb hc hs⟩) moves).2

/-- What is emitted was paid for. -/
theorem emissions_le_granted {m : Merge L u} (hc : m.Coherent) (hs : m.books.Solvent) :
    m.emissions.length ≤ m.granted := by
  have hbound : m.credit.remaining + (m.emissions.length - m.unsent.toList.length) ≤ m.granted := hs.bounded
  cases hu : m.unsent with
  | none =>
    rw [hu, Option.toList_none, List.length_nil] at hbound
    omega
  | some y =>
    have hpos := Credit.isPositive_iff _ |>.1 (hc.funded (by rw [hu]; rfl))
    rw [hu, Option.toList_some, List.length_singleton] at hbound
    omega

/-! ## Credit that was asked for -/

/-- The credit taken and the credit that waits to be taken. -/
def pledged (m : Merge L u) : Nat := m.books.granted + m.books.waiting

theorem pledged_advance : ∀ (fuel : Nat) {m : Merge L u}, m.Balanced → m.Coherent →
    (m.advance fuel).pledged ≤ m.pledged
  | 0, m, _, _ => Nat.le_refl _
  | fuel + 1, m, hb, hc => by
    unfold advance
    split
    · rename_i ha
      exact Nat.le_trans (pledged_advance fuel (hb.acts (step_spec m).acts) ((step_spec m).coherent hc ha))
        (Books.pledged_acts ((step_spec m).books hb hc))
    · exact Nat.le_refl _

theorem pledged_poll (fuel : Nat) {m : Merge L u} (hb : m.Balanced) (hc : m.Coherent) :
    (m.poll fuel).pledged ≤ m.pledged := by
  unfold poll
  split
  · exact Nat.le_refl _
  · rename_i hf
    have hr : Change m { m with awake := true, link := m.link.heed } := .rouse m (eq_false_of_ne_true hf)
    exact pledged_advance fuel (hb.acts hr.acts) (hr.coherent hc)

theorem pledged_abandon (m : Merge L u) : m.abandon.pledged ≤ m.pledged := by
  unfold abandon
  split
  · exact Nat.le_refl _
  · have hg : m.releaseAll.granted = m.granted :=
      congrArg List.sum ((extends_releaseAll m).filterMap_eq fun e ⟨p, he⟩ => he ▸ rfl)
    show m.releaseAll.granted + 0 ≤ _
    rw [hg]
    exact Nat.le_add_right _ _

end Merge

namespace Session

/-- With a move, no more credit is pledged than is asked for. -/
theorem pledged_perform (s : Session L u) (mv : Move u) (hb : s.merge.Balanced) (hc : s.merge.Coherent) :
    (s.perform mv).merge.pledged ≤ s.merge.pledged + s.asks mv := by
  cases s.performs mv with
  | link k h ha =>
    rw [h]
    show s.merge.granted + k.waiting ≤ s.merge.granted + s.merge.link.waiting + s.asks mv
    have := ha.waiting
    omega
  | source p woken f q state k _ _ _ h ha =>
    rw [h]
    show s.merge.granted + k.waiting ≤ s.merge.granted + s.merge.link.waiting + s.asks mv
    have := ha.waiting
    omega
  | poll fuel h =>
    subst h
    exact Merge.pledged_poll fuel hb hc
  | abandon h =>
    subst h
    exact Merge.pledged_abandon s.merge

theorem pledged_play : ∀ (moves : List (Move u)) (s : Session L u), s.merge.Balanced → s.merge.Coherent →
    (s.play moves).merge.pledged ≤ s.merge.pledged + s.asked moves
  | [], s, _, _ => Nat.le_refl _
  | mv :: moves, s, hb, hc => by
    have hch := perform_changes s mv
    have hc' : (s.perform mv).merge.Coherent :=
      hch.induction (motive := Merge.Coherent) (fun _ _ h hc => h.coherent hc) hc
    have h := pledged_perform s mv hb hc
    have h' := pledged_play moves (s.perform mv) (hb.acts hch.acts) hc'
    rw [play_cons, asked]
    omega

/-- No more credit is taken in the course of a play than is asked for. -/
theorem granted_le_asked {settings : Settings} {sources : List u.State} {m : Merge L u}
    (hm : Merge.setUp L u settings sources = .ok m) (moves : List (Move u)) :
    ((start m).play moves).merge.granted ≤ (start m).asked moves := by
  have hfresh := Merge.setUp_fresh hm
  have h := pledged_play moves (start m) hfresh.balanced hfresh.coherent
  have hz : (start m).merge.pledged = 0 := by
    show (m.history.filterMap Entry.granted?).sum + (m.link.signals.map Signal.amount).sum = 0
    rw [hfresh.history, hfresh.link]
    rfl
  have hle : ((start m).play moves).merge.granted ≤ ((start m).play moves).merge.pledged := Nat.le_add_right _ _
  omega

/-- A session in which so much credit was asked for reads and delivers on credit only. -/
structure Funded (s : Session L u) (asked : Nat) : Prop where
  /-- The next step polls a source, or takes up an event, only if there is credit. -/
  reading : s.merge.awake = true → ∀ es, s.merge.step.history = s.merge.history ++ es →
    ∀ e ∈ es, e.isPoll ∨ e.isArrival → 0 < s.merge.credit.remaining
  /-- What was emitted has credit, so that it is never waited for and never runs out when it is used. -/
  emission : s.merge.unsent.isSome = true → 0 < s.merge.credit.remaining
  unblocked : ∀ closing, s.merge.stage ≠ .awaiting (.deliver closing)
  flushing : ∀ closing, s.merge.stage = .draining (.deliver closing) → 0 < s.merge.credit.remaining
  /-- The credit that is left is at most what was granted less what was flushed. -/
  bounded : s.merge.credit.remaining + s.merge.books.flushed ≤ s.merge.granted
  /-- It is exactly that, unless more was granted than the counter can hold. -/
  exact : s.merge.granted ≤ Credit.limit → s.merge.credit.remaining + s.merge.books.flushed = s.merge.granted
  /-- No more credit is taken than was asked for, and no more elements are delivered. -/
  taken : s.merge.granted ≤ asked
  delivered : (s.merge.deliveries.filterMap Delivery.element?).length ≤ asked
  /-- As long as the consumer receives, what was flushed is what was delivered. -/
  flushed : s.merge.link.receiving = true →
    (s.merge.deliveries.filterMap Delivery.element?).length = s.merge.books.flushed
  /-- If nothing was asked for, no source was ever polled. -/
  unread : asked = 0 → ∀ e ∈ s.merge.history, ¬ e.isPoll

/-- **A merge reads and delivers on credit.** For every strategy, all sources and every order of moves. -/
theorem play_funded {settings : Settings} {sources : List u.State} {m : Merge L u}
    (hm : Merge.setUp L u settings sources = .ok m) (moves : List (Move u)) :
    ((start m).play moves).Funded ((start m).asked moves) := by
  have hb := Merge.play_balanced hm moves
  have hc := Merge.play_coherent hm moves
  have hs := Merge.play_solvent hm moves
  have htaken := granted_le_asked hm moves
  have hfunded : ((start m).play moves).merge.unsent.isSome = true →
      0 < ((start m).play moves).merge.credit.remaining := fun hu => Credit.isPositive_iff _ |>.1 (hc.funded hu)
  refine ⟨fun _ es hes e he hr => ?_, hfunded, fun closing hst => ?_, fun closing hst => ?_, hs.bounded, hs.exact,
    htaken, ?_, Merge.delivered_eq_flushed hm moves, fun hz => ?_⟩
  · obtain ⟨es', hes', hok⟩ := (Merge.step_spec _).reads hc
    obtain rfl := List.append_cancel_left (hes.symm.trans hes')
    exact hok e he hr
  · have hf := hc.fits
    rw [hst] at hf
    exact hf
  · have hf := hc.fits
    rw [hst] at hf
    exact hfunded hf
  · have hd : (((start m).play moves).merge.deliveries.filterMap Delivery.element?).length ≤
        ((start m).play moves).merge.books.flushed := hs.delivered_le
    have hbound : ((start m).play moves).merge.credit.remaining + ((start m).play moves).merge.books.flushed ≤
        ((start m).play moves).merge.granted := hs.bounded
    omega
  · exact Merge.play_unread hm moves (by omega)

/-- Of three elements two are asked for, and two are delivered. -/
theorem play_funded_fair : ∃ m,
    Merge.setUp (Strategy.fair Nat) (scripted Nat) .standard [.ofList [1, 3], .ofList [2]] = .ok m ∧
    ((start m).play [.request 2, .poll 60]).Funded 2 ∧
    ((start m).play [.request 2, .poll 60]).merge.deliveries = [.element 1, .element 2] := by
  have hm : Merge.setUp (Strategy.fair Nat) (scripted Nat) .standard [.ofList [1, 3], .ofList [2]] = .ok _ := rfl
  exact ⟨_, hm, play_funded hm [.request 2, .poll 60], rfl⟩

end Session
end StreamMerge
