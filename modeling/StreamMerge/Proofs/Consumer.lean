import StreamMerge.Proofs.Delivery

/-!
# What the consumer sees

As long as the consumer receives, what it has seen and what is still in the queue is everything that was
delivered; with the account of deliveries this says that it sees what the strategy emitted and how the run ended
(`Session.play_faithful`).
-/
namespace StreamMerge

variable {α β : Type} {L : Strategy α β} {u : Source α}

/-! ## Transitions and emissions -/

/-- The event that is taken up. -/
def Entry.arrival? : Entry L → Option (InletId × Arrival α)
  | .arrived _ p a => some (p, a)
  | _ => none

theorem Entry.arrival?_of_not_isArrival {e : Entry L} (h : ¬ e.isArrival) : e.arrival? = none := by
  cases e <;> first | rfl | exact absurd trivial h

namespace Merge

/-- What the entries `es` say of the transitions from `m` on: one event at most was taken up, and what its
transition emits was emitted, or else the run ended because it emitted twice. -/
structure Transits (m m' : Merge L u) (es : List (Entry L)) : Prop where
  atMostOne : (es.filterMap Entry.arrival?).length ≤ 1
  emitted : es.filterMap Entry.emitted? =
    (es.filterMap Entry.arrival?).flatMap fun (p, a) => (m.transition p a).emission?.toList
  broken : ∀ p a, (p, a) ∈ es.filterMap Entry.arrival? →
    (Effects.ofActions (m.transition p a).actions).emittedTwice = true →
    m'.verdict? = some (.error (.protocol .emittedTwice))

theorem transits_of_quiet {m m' : Merge L u} {es : List (Entry L)}
    (h : ∀ e ∈ es, ¬ e.isArrival ∧ e.emitted? = none) : Transits m m' es := by
  have ha : es.filterMap Entry.arrival? = [] :=
    List.filterMap_eq_nil_iff.2 fun e he => Entry.arrival?_of_not_isArrival (h e he).1
  have hem : es.filterMap Entry.emitted? = [] := List.filterMap_eq_nil_iff.2 fun e he => (h e he).2
  refine ⟨by simp [ha], by rw [ha, hem]; rfl, fun p a hpa => ?_⟩
  rw [ha] at hpa
  cases hpa

/-- Where an event is served, it is the one that is taken up. -/
theorem Serves.arrival {m m' : Merge L u} {choice : Choice} {p : InletId} {a : Arrival α}
    {reads outcome : List (Entry L)} (h : Serves m choice p a reads outcome m') :
    (reads ++ .arrived choice p a :: ((m.handling p a (m.transition p a).next).toList ++ outcome)).filterMap
      Entry.arrival? = [(p, a)] := by
  have hreads : reads.filterMap Entry.arrival? = [] :=
    List.filterMap_eq_nil_iff.2 fun e he => Entry.arrival?_of_not_isArrival (h.not_isArrival_reads he)
  have hrest : ((m.handling p a (m.transition p a).next).toList ++ outcome).filterMap Entry.arrival? = [] :=
    List.filterMap_eq_nil_iff.2 fun e he => Entry.arrival?_of_not_isArrival (h.not_isArrival_rest he)
  rw [List.filterMap_append, hreads, List.nil_append,
    List.filterMap_cons_some (f := Entry.arrival?) (b := (p, a)) rfl, hrest]

theorem Step.transits {m m' : Merge L u} (h : Step m m') (hb : m.Balanced) :
    ∃ es, m'.history = m.history ++ es ∧ Transits m m' es := by
  rcases h.aside_or_tries with ⟨⟨es, hes, hok⟩, -, -⟩ | htry
  · exact ⟨es, hes, transits_of_quiet fun e he =>
      ⟨Entry.not_isArrival_of_isSideline (hok e he), emitted?_of_isSideline (hok e he)⟩⟩
  · rcases htry.serves hb with ⟨es, hes, hok⟩ | ⟨choice, p, a, reads, outcome, hs⟩
    · exact ⟨es, hes, transits_of_quiet fun e he =>
        ⟨Entry.not_isArrival_of_isReading (hok e he), emitted?_of_isReading (hok e he)⟩⟩
    · have hes := hs.history.trans (List.append_assoc ..)
      refine ⟨_, hes, ?_⟩
      have ha := hs.arrival
      have hem := emissions_of_serves hs
      rw [emissions, hes, List.filterMap_append] at hem
      refine ⟨by rw [ha]; simp, ?_, fun k b hkb => ?_⟩
      · rw [ha, List.append_cancel_left hem]
        simp
      · rw [ha] at hkb
        obtain ⟨rfl, rfl⟩ := Prod.mk.inj (List.mem_singleton.1 hkb)
        exact hs.broken

theorem EmittedLast.tries {m m' : Merge L u} (h : m.EmittedLast) (htry : Tries m m') (hb : m.Balanced)
    (hc : m.Coherent) : m'.EmittedLast := by
  cases htry with
  | waits choice order hst =>
    exact h.of_extends ((extends_seek m order).mono fun _ => Entry.not_isArrival_of_isReading)
      (Or.inl (frame_seek m order).unsent)
  | accepts choice order p a q hst hp hq ha =>
    intro y hy
    obtain ⟨reads, outcome, hs⟩ := serves_of_found hb hst hp hq ha
    rw [hs.unsent, hc.unsent_of_attempting hst] at hy
    have hem : (m.transition p a).emission? = some y := by simpa using hy
    have hout := hs.emitted
    rw [hem] at hout
    obtain ⟨pre, e, post, rfl, he⟩ := split_filterMap_singleton hout
    cases e <;> try cases he
    refine ⟨m.history ++ reads ++ .arrived choice p a ::
      ((m.handling p a (m.transition p a).next).toList ++ pre), post, hs.history.trans (by simp), fun e he => ?_⟩
    exact Entry.not_isArrival_of_isOutcome (hs.isOutcome e (by simp [he]))

theorem EmittedLast.step {m m' : Merge L u} (h : m.EmittedLast) (hstep : Step m m') (hb : m.Balanced)
    (hc : m.Coherent) : m'.EmittedLast := by
  rcases hstep.aside_or_tries with ha | htry
  · exact h.of_extends (ha.history.mono fun _ => Entry.not_isArrival_of_isSideline) ha.unsent
  · exact h.tries htry hb hc

theorem EmittedLast.change {m m' : Merge L u} (h : m.EmittedLast) (hch : Change m m') (hb : m.Balanced)
    (hc : m.Coherent) : m'.EmittedLast := by
  cases hch with
  | step => exact h.step (step_spec m) hb hc
  | abandon =>
    exact h.of_extends ((extends_releaseAll m).mono fun e ⟨p, he⟩ => by subst he; exact id)
      (Or.inl (frame_releaseAll m).unsent)
  | _ => exact h

theorem play_emittedLast {settings : Settings} {sources : List u.State} {m : Merge L u}
    (hm : setUp L u settings sources = .ok m) (moves : List (Move u)) :
    ((Session.start m).play moves).merge.EmittedLast :=
  play_invariant (motive := EmittedLast) hm (fun y hy => by rw [(setUp_fresh hm).unsent] at hy; cases hy)
    (fun h hb hc he => he.change h hb hc) moves

/-- Everything that a poll of the run delivers is noted and put into the queue. -/
theorem sends_advance : ∀ (fuel : Nat) (m : Merge L u), ∃ ds, Sends m (m.advance fuel) ds
  | 0, m => ⟨[], .refl m⟩
  | fuel + 1, m => by
    unfold advance
    split
    · obtain ⟨ds, h⟩ := (step_spec m).sends
      obtain ⟨ds', h'⟩ := sends_advance fuel m.step
      exact ⟨ds ++ ds', h.trans h'⟩
    · exact ⟨[], .refl m⟩

theorem sends_poll (fuel : Nat) (m : Merge L u) : ∃ ds, Sends m (m.poll fuel) ds := by
  unfold poll
  split
  · exact ⟨[], .refl m⟩
  · obtain ⟨ds, h⟩ := sends_advance fuel { m with awake := true, link := m.link.heed }
    exact ⟨ds, h.deliveries, h.queue, h.receiving⟩

theorem sends_abandon (m : Merge L u) : Sends m m.abandon [] := by
  unfold abandon
  split
  · exact .refl m
  · have hf := frame_releaseAll m
    exact .of_extends ((extends_releaseAll m).mono fun e ⟨p, he⟩ => he ▸ rfl) hf.deliveries hf.receiving

end Merge

/-! ## The consumer's side of the queue -/

namespace Session

/-- What the queue held and was put into it with a move is what the consumer takes and what stays. -/
theorem perform_sees (s : Session L u) (mv : Move u) (hr : (s.perform mv).merge.link.receiving = true) :
    ∃ new, (s.perform mv).merge.deliveries = s.merge.deliveries ++ new ∧
      s.merge.link.deliveries ++ new = s.sees mv ++ (s.perform mv).merge.link.deliveries := by
  cases s.performs mv with
  | link k h ha =>
    rw [h] at hr ⊢
    exact ⟨[], (List.append_nil _).symm, (List.append_nil _).trans (ha.taken hr)⟩
  | source p woken f q state k _ _ _ h ha =>
    rw [h] at hr ⊢
    exact ⟨[], (List.append_nil _).symm, (List.append_nil _).trans (ha.taken hr)⟩
  | poll fuel h =>
    subst h
    obtain ⟨ds, h⟩ := Merge.sends_poll fuel s.merge
    exact ⟨ds, h.deliveries, h.queue.symm⟩
  | abandon h =>
    subst h
    have h := Merge.sends_abandon s.merge
    exact ⟨[], h.deliveries, h.queue.symm⟩

/-- What was delivered in the course of a play is what the consumer has seen and what is still in the queue. -/
theorem play_sees : ∀ (moves : List (Move u)) (s : Session L u), (s.play moves).merge.link.receiving = true →
    ∃ new, (s.play moves).merge.deliveries = s.merge.deliveries ++ new ∧
      s.merge.link.deliveries ++ new = s.seen moves ++ (s.play moves).merge.link.deliveries
  | [], s, _ => ⟨[], by simp, by simp [seen]⟩
  | mv :: moves, s, hr => by
    have hr' := (play_changes moves (s.perform mv)).receiving hr
    obtain ⟨new, hd, hq⟩ := perform_sees s mv hr'
    obtain ⟨new', hd', hq'⟩ := play_sees moves (s.perform mv) hr
    refine ⟨new ++ new', by rw [play_cons, hd', hd, List.append_assoc], ?_⟩
    rw [← List.append_assoc, hq, List.append_assoc, hq', play_cons, seen, List.append_assoc]

/-- From the beginning, what was delivered is what the consumer has seen and what is still in the queue. -/
theorem deliveries_eq_seen {settings : Settings} {sources : List u.State} {m : Merge L u}
    (hm : Merge.setUp L u settings sources = .ok m) (moves : List (Move u))
    (hr : ((start m).play moves).merge.link.receiving = true) :
    ((start m).play moves).merge.deliveries = (start m).seen moves ++ ((start m).play moves).merge.link.deliveries := by
  have hfresh := Merge.setUp_fresh hm
  obtain ⟨new, hnew, hq⟩ := play_sees moves (start m) hr
  have hd₀ : (start m).merge.deliveries = [] := by
    show m.deliveries = []
    rw [Merge.deliveries, hfresh.history]
    rfl
  have hq₀ : (start m).merge.link.deliveries = [] := by
    show m.link.deliveries = []
    rw [hfresh.link]
    rfl
  rw [hd₀, List.nil_append] at hnew
  rw [hq₀, List.nil_append] at hq
  rw [hnew, hq]

/-- What a consumer that has taken `seen` out of the queue is told agrees with what the strategy emitted and with
how the run ended. -/
structure Faithful (s : Session L u) (seen : List (Delivery β)) : Prop where
  /-- Everything delivered was seen or is in the queue. -/
  conserved : s.merge.deliveries = seen ++ s.merge.link.deliveries
  /-- The deliveries are what was emitted, in order and once each, but for what is still unsent; then, if the run
  has ended, what the consumer is told of its end, and nothing else. -/
  ordered : ∃ sent : List β, s.merge.emissions = sent ++ s.merge.unsent.toList ∧
    s.merge.deliveries = sent.map .element ++ (s.merge.verdict?.bind Merge.farewell).toList
  /-- A run that waits has sent everything. -/
  suspended : s.merge.awake = false → s.merge.stage.isFinal = false → s.merge.unsent = none
  /-- So has a run that was completed. -/
  completed : s.merge.verdict? = some (.ok .completed) → s.merge.unsent = none
  /-- What is unsent was emitted by the last transition. -/
  last : ∀ y, s.merge.unsent = some y → ∃ pre post, s.merge.history = pre ++ .emitted y :: post ∧
    ∀ e ∈ post, ¬ e.isArrival
  /-- The next step takes up one event at most, and emits what the transition of this event emits. -/
  transition : s.merge.awake = true →
    ∃ es, s.merge.step.history = s.merge.history ++ es ∧ s.merge.Transits s.merge.step es

/-- **The consumer is told the truth.** For every strategy, all sources and every order of moves after which the
consumer still receives: the elements delivered are the elements emitted, and the last delivery is the verdict of
the run. -/
theorem play_faithful {settings : Settings} {sources : List u.State} {m : Merge L u}
    (hm : Merge.setUp L u settings sources = .ok m) (moves : List (Move u))
    (hr : ((start m).play moves).merge.link.receiving = true) :
    ((start m).play moves).Faithful ((start m).seen moves) := by
  have hb := Merge.play_balanced hm moves
  have hc := Merge.play_coherent hm moves
  obtain ⟨sent, hd, hem⟩ := Merge.play_truthful hm moves hr
  refine ⟨deliveries_eq_seen hm moves hr, ⟨sent, hem, hd⟩, fun ha hf => ?_, fun hv => ?_,
    Merge.play_emittedLast hm moves, fun _ => (Merge.step_spec _).transits hb⟩
  · rcases hc.idle ha with hu | hf'
    · exact hu
    · rw [hf] at hf'
      cases hf'
  · have hfit := hc.fits
    have hst : ((start m).play moves).merge.stage = .ended (.ok .completed) := by
      unfold Merge.verdict? at hv
      split at hv
      · rename_i v hst
        rw [hst, Option.some.inj hv]
      · cases hv
    rw [hst] at hfit
    exact hfit rfl

/-- The fair strategy passes all elements on, and the merge is completed when both sources have ended. -/
theorem play_faithful_fair : ∃ m,
    Merge.setUp (Strategy.fair Nat) (scripted Nat) .standard [.ofList [1, 3], .ofList [2]] = .ok m ∧
    ((start m).play [.request 9, .poll 60, .drain]).merge.link.receiving = true ∧
    ((start m).play [.request 9, .poll 60, .drain]).Faithful
      [.element 1, .element 2, .element 3, .complete] := by
  have hm : Merge.setUp (Strategy.fair Nat) (scripted Nat) .standard [.ofList [1, 3], .ofList [2]] = .ok _ := rfl
  exact ⟨_, hm, rfl, play_faithful hm [.request 9, .poll 60, .drain] rfl⟩

end Session
end StreamMerge
