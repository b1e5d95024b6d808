import StreamMerge.Proofs.Rotation
import StreamMerge.Proofs.Seeking
import StreamMerge.Strategy.Rules

/-!
# Taking turns

Does an inlet that is always ready get its turn, as long as every choice is one of any of some inlets and names
it? The rotation comes past it once for as many elements as there are inlets; then it is served, or overtaken by
an element that was read ahead (`Changes.stretch`). So it gets its turn unless it is overtaken every time
(`Session.play_served_iff`), and that can happen, even for ever (`Starving.play_rounds`).
-/
namespace StreamMerge

variable {α β : Type} {L : Strategy α β} {u : Source α}

/-! ## Ready for its turn -/

/-- A choice of any of some inlets, `p` among them. -/
def Choice.isAnyOf (p : InletId) : Choice → Bool
  | .any ps => decide (p ∈ ps)
  | _ => false

/-- Elements are handed over only under a choice of any of some inlets, `p` among them, and a poll of `p` is
answered with an element. -/
def Entry.courts (p : InletId) : Entry L → Bool
  | .arrived c _ (.element _) => c.isAnyOf p
  | .polled k r => k ≠ p || r.element?.isSome
  | _ => true

namespace Merge

/-- The trail between two steps. -/
def trail (m : Merge L u) : Trail := ⟨m.turn, none⟩

/-! ## What a step does to the rotation -/

/-- An inlet whose turn comes first is not passed over by an attempt that polls: it would have been polled
before, and answered. -/
theorem not_fresh_of_precedes {m : Merge L u} (hb : m.Balanced) {ps : List InletId} {order : List InletId}
    {p k : InletId} {q : Inlet u} {x : α} {reads : List (Entry L)}
    (horder : order = Choice.rotation m.turn (m.inletIs · (·.isOpen)) ps) (hp : p ∈ ps)
    (ho : m.inletIs p (·.isOpen) = true) (hk : (m.seek order).1 = some k)
    (hq : (m.seek order).2.inlets[k]? = some q) (hx : q.buffer = some (.element x))
    (hreads : (m.seek order).2.history = m.history ++ reads) (hready : ∀ e ∈ reads, e.courts p = true)
    (hprec : Precedes m.turn p k) : (reads.foldl Trail.next m.trail).fresh ≠ some k := by
  have hpair : order.Pairwise (Precedes m.turn) := horder ▸ Choice.pairwise_rotation _ _ ps
  have hnd : order.Nodup := horder ▸ Choice.nodup_rotation _ _ ps
  have hlive : ∀ r ∈ order, m.Live r := fun r hr => live_of_mem hb (.any ps) (horder ▸ hr)
  rcases seek_element hlive hnd hk hq hx with ⟨-, hm⟩ | ⟨pre, post, es, es', hsplit, hes, hpending⟩
  · rw [hm] at hreads
    obtain rfl : reads = [] := by simpa using hreads
    simp [trail]
  · exfalso
    have hmem : p ∈ pre ++ k :: post := hsplit ▸ horder ▸ Choice.mem_rotation.2 ⟨hp, ho⟩
    rw [hsplit] at hpair
    rcases List.mem_append.1 hmem with hmem | hmem
    · obtain ⟨again, hpoll⟩ := hpending p hmem
      rw [hreads, List.append_assoc, List.append_assoc] at hes
      have hreads := List.append_cancel_left hes
      have := hready (.polled p (.pending again)) (by rw [hreads]; simp [hpoll])
      simp [Entry.courts, Reply.element?] at this
    · rcases List.mem_cons.1 hmem with rfl | hmem
      · exact not_precedes_self hprec
      · have h := (List.pairwise_cons.1 (List.pairwise_append.1 hpair).2.1).1 p hmem
        exact not_precedes hprec h

/-- Changes that write nothing about sources and events leave the rotation alone. -/
theorem stretch_of_extends {m m' : Merge L u} {p : InletId} {es : List (Entry L)}
    (h : Extends (fun e => e.served? = none ∧ ¬ e.isPoll) m m') (ht : m'.turn = m.turn)
    (hes : m'.history = m.history ++ es) : Stretch p m.trail es m'.trail := by
  obtain ⟨es', hes', hquiet⟩ := h
  obtain rfl := List.append_cancel_left (hes.symm.trans hes')
  have hs := Stretch.of_quiet p m.turn hquiet
  unfold trail
  rw [ht]
  exact hs

/-- An attempt in vain leaves the rotation alone: the last answer it got was that there is nothing yet. -/
theorem stretch_of_seek {m : Merge L u} (hb : m.Balanced) (hc : m.Coherent) {choice : Choice} {order : List InletId}
    {p : InletId} {es : List (Entry L)} (hst : m.stage = .attempting choice order) (hk : (m.seek order).1 = none)
    (hes : (m.seek order).2.history = m.history ++ es) : Stretch p m.trail es (m.seek order).2.trail := by
  have hf := hc.fits
  rw [hst] at hf
  obtain ⟨-, -, -, horder, hne⟩ := hf
  obtain ⟨es₁, k, again, hes₁⟩ := seek_none (fun r hr => live_of_mem hb choice (horder ▸ hr)) hne hk
  obtain ⟨es₂, hes₂, hread⟩ := extends_seek m order
  obtain rfl := List.append_cancel_left (hes.symm.trans hes₂)
  rw [List.append_assoc] at hes₁
  obtain rfl := List.append_cancel_left (hes.symm.trans hes₁)
  have hs := Stretch.of_unserved p m.trail fun e he =>
    Entry.served?_of_not_isArrival (Entry.not_isArrival_of_isReading (hread e he))
  rw [List.foldl_append] at hs
  unfold trail
  rw [(frame_seek m order).turn]
  exact hs

/-- Taking up an event gives `p` its turn. -/
theorem Serves.stretch {m m' : Merge L u} {choice : Choice} {p k : InletId} {a : Arrival α}
    {reads outcome es : List (Entry L)} (h : Serves m choice k a reads outcome m') (hb : m.Balanced)
    (hc : m.Coherent) (ho : m.inletIs p (·.isOpen) = true) (hes : m'.history = m.history ++ es)
    (hcourts : ∀ e ∈ es, e.courts p = true) : Stretch p m.trail es m'.trail := by
  have hh := h.history
  rw [hes, List.append_assoc] at hh
  obtain rfl := List.append_cancel_left hh
  have hreads := Stretch.of_unserved p m.trail fun e he => Entry.served?_of_not_isArrival (h.not_isArrival_reads he)
  have hrest : ∀ turn, Stretch p ⟨turn, none⟩
      ((m.handling k a (m.transition k a).next).toList ++ outcome) ⟨turn, none⟩ := fun turn =>
    Stretch.of_quiet p turn fun e he => ⟨Entry.served?_of_not_isArrival (h.not_isArrival_rest he),
      (List.mem_append.1 he).elim (fun he => Entry.not_isPoll_of_isCall (isCall_handling he))
        fun he => Entry.not_isPoll_of_isOutcome (h.isOutcome e he)⟩
  have htrail : m'.trail = ⟨if !a.isTerminal && choice.advances k then k + 1 else m.turn, none⟩ := by
    unfold trail
    rw [h.turn]
  cases ht : a.isTerminal with
  | true =>
    rw [htrail, ht]
    exact hreads.append ((Stretch.of_terminal p _ ht).append (hrest m.turn))
  | false =>
    obtain ⟨x, rfl⟩ := Arrival.isTerminal_eq_false.1 ht
    obtain ⟨order, q, hst, hk, hq, hx, hseek⟩ := h.found
    have hf := hc.fits
    rw [hst] at hf
    obtain ⟨-, -, -, horder, -⟩ := hf
    have hany : choice.isAnyOf p = true := hcourts (.arrived choice k (.element x)) (by simp)
    cases choice with
    | one r => cases hany
    | preferred r rs => cases hany
    | any ps =>
      rw [htrail]
      refine hreads.append ((Stretch.of_element fun hprec => ?_).append (hrest (k + 1)))
      exact not_fresh_of_precedes hb horder (of_decide_eq_true hany) ho hk hq hx (hseek rfl)
        (fun e he => hcourts e (List.mem_append_left _ he)) hprec

theorem Tries.stretch {m m' : Merge L u} (h : Tries m m') (hb : m.Balanced) (hc : m.Coherent) {p : InletId}
    (ho : m.inletIs p (·.isOpen) = true) {es : List (Entry L)} (hes : m'.history = m.history ++ es)
    (hcourts : ∀ e ∈ es, e.courts p = true) : Stretch p m.trail es m'.trail := by
  cases h with
  | waits choice order hst hk => exact stretch_of_seek hb hc hst hk hes
  | accepts choice order k a q hst hk hq ha =>
    obtain ⟨reads, outcome, hs⟩ := serves_of_found hb hst hk hq ha
    exact hs.stretch hb hc ho hes hcourts

/-- **Every change gives `p` its turn.** -/
theorem Change.stretch {m m' : Merge L u} (h : Change m m') (hb : m.Balanced) (hc : m.Coherent) {p : InletId}
    (ho : m.inletIs p (·.isOpen) = true) {es : List (Entry L)} (hes : m'.history = m.history ++ es)
    (hcourts : ∀ e ∈ es, e.courts p = true) : Stretch p m.trail es m'.trail := by
  cases h with
  | step =>
    rcases (step_spec m).aside_or_tries with ha | htry
    · exact stretch_of_extends (ha.history.mono fun e he => ⟨Entry.served?_of_not_isArrival
        (Entry.not_isArrival_of_isSideline he), Entry.not_isPoll_of_isSideline he⟩) ha.turn hes
    · exact htry.stretch hb hc ho hes hcourts
  | abandon =>
    exact stretch_of_extends ((extends_releaseAll m).mono fun e ⟨k, he⟩ => by subst he; exact ⟨rfl, id⟩)
      (frame_releaseAll m).turn hes
  | _ => exact stretch_of_extends (.of_eq rfl) rfl hes

/-- **Any number of changes give `p` its turns**, as long as it is open and is courted. -/
theorem Changes.stretch {m m' : Merge L u} (h : Changes m m') (hb : m.Balanced) (hc : m.Coherent) {p : InletId}
    (ho : m'.inletIs p (·.isOpen) = true) {es : List (Entry L)} (hes : m'.history = m.history ++ es)
    (hcourts : ∀ e ∈ es, e.courts p = true) : Stretch p m.trail es m'.trail := by
  have hall : m'.Balanced ∧ m'.Coherent ∧ ∃ es, m'.history = m.history ++ es ∧
      (m'.inletIs p (·.isOpen) = true → (∀ e ∈ es, e.courts p = true) → Stretch p m.trail es m'.trail) := by
    refine h.induction (motive := fun m' => m'.Balanced ∧ m'.Coherent ∧ ∃ es, m'.history = m.history ++ es ∧
      (m'.inletIs p (·.isOpen) = true → (∀ e ∈ es, e.courts p = true) → Stretch p m.trail es m'.trail))
      (fun m₁ m₂ hch ⟨hb₁, hc₁, es₁, hes₁, hs₁⟩ => ?_) ⟨hb, hc, [], by simp, fun _ _ => ⟨rfl, rfl⟩⟩
    obtain ⟨es₂, hes₂, -⟩ := hch.extends_concerns hb₁
    refine ⟨hb₁.acts hch.acts, hch.coherent hc₁, es₁ ++ es₂, by rw [hes₂, hes₁, List.append_assoc],
      fun ho₂ hcourts => ?_⟩
    -- What is open after the change was open before.
    have ho₁ : m₁.inletIs p (·.isOpen) = true := by
      cases hcl : m₁.inletIs p (·.isOpen) with
      | true => rfl
      | false => rw [hb₁.closed_acts hch.acts hcl] at ho₂; cases ho₂
    exact (hs₁ ho₁ fun e he => hcourts e (List.mem_append_left es₂ he)).append
      (hch.stretch hb₁ hc₁ ho₁ hes₂ fun e he => hcourts e (List.mem_append_right es₁ he))
  obtain ⟨-, -, es', hes', hs⟩ := hall
  obtain rfl := List.append_cancel_left (hes.symm.trans hes')
  exact hs ho hcourts

/-! ## The inlets there are -/

/-- There are at most `count` inlets, and the rotation stands at one of them or at their end. -/
structure Within (count : Nat) (m : Merge L u) : Prop where
  inlets : m.inlets.length ≤ count
  turn : m.turn ≤ count

theorem Fresh.within {m : Merge L u} {sources : List u.State} (h : Fresh m sources) : Within sources.length m :=
  ⟨by simp [h.inlets], by simp [h.turn]⟩

theorem Acts.length_le {m m' : Merge L u} (h : Acts m m') : m'.inlets.length ≤ m.inlets.length := by
  refine Nat.le_of_not_lt fun hlt => ?_
  obtain ⟨q, hq, -⟩ := h m.inlets.length _ (List.getElem?_eq_getElem hlt)
  exact absurd (List.getElem?_eq_some_iff.1 hq).1 (Nat.lt_irrefl _)

/-- An attempt leaves the rotation where it stands, or behind an inlet that is open. -/
theorem Tries.turn {m m' : Merge L u} (h : Tries m m') (hb : m.Balanced) :
    m'.turn = m.turn ∨ ∃ k, m.inletIs k (·.isOpen) = true ∧ m'.turn = k + 1 := by
  cases h with
  | waits choice order => exact Or.inl (frame_seek m order).turn
  | accepts choice order k a q hst hk hq ha =>
    obtain ⟨reads, outcome, hs⟩ := serves_of_found hb hst hk hq ha
    have hturn := hs.turn
    split at hturn
    · exact Or.inr ⟨k, hs.isOpen, hturn⟩
    · exact Or.inl hturn

theorem Within.change {count : Nat} {m m' : Merge L u} (hw : Within count m) (h : Change m m') (hb : m.Balanced) :
    Within count m' := by
  refine ⟨Nat.le_trans h.acts.length_le hw.inlets, ?_⟩
  cases h with
  | step =>
    rcases (step_spec m).aside_or_tries with ha | htry
    · rw [ha.turn]
      exact hw.turn
    · rcases htry.turn hb with ht | ⟨k, hk, ht⟩
      · rw [ht]
        exact hw.turn
      · rw [ht]
        exact Nat.le_trans (lt_of_isOpen hk) hw.inlets
  | abandon =>
    rw [show _ = m.turn from (frame_releaseAll m).turn]
    exact hw.turn
  | _ => exact hw.turn

/-- Only inlets that there are are served. -/
theorem Changes.served_lt {count : Nat} {m m' : Merge L u} (h : Changes m m') (hb : m.Balanced)
    (hw : Within count m) : Extends (fun e => ∀ k, e.served? = some k → k < count) m m' := by
  refine (h.induction (motive := fun m' => Extends (fun e => ∀ k, e.served? = some k → k < count) m m' ∧
    m'.Balanced ∧ Within count m') (fun m₁ m₂ hch ⟨hx, hb₁, hw₁⟩ => ?_) ⟨.refl m, hb, hw⟩).1
  refine ⟨hx.trans ((hch.extends_concerns hb₁).mono fun e he k hk => ?_), hb₁.acts hch.acts, hw₁.change hch hb₁⟩
  have hc : e.concerns k := by
    cases e with
    | arrived c k' a => cases a <;> cases hk; rfl
    | _ => cases hk
  exact Nat.lt_of_lt_of_le (lt_of_isOpen (he k hc)) hw₁.inlets

theorem play_within {settings : Settings} {sources : List u.State} {m : Merge L u}
    (hm : setUp L u settings sources = .ok m) (moves : List (Move u)) :
    Within sources.length ((Session.start m).play moves).merge :=
  play_invariant hm (setUp_fresh hm).within (fun h hb _ hw => hw.change h hb) moves

end Merge

/-! ## No starvation, and starvation -/

namespace Session

/-- **When an inlet gets its turn.** Let `p` be open and courted through a stretch `es` of a run in which twice as
many elements are handed over as there are inlets. Then the rotation comes past `p` at least twice, and `p` is
served exactly if it is not overtaken each time. So being overtaken once cannot keep it from its turn. -/
theorem play_served_iff {settings : Settings} {sources : List u.State} {m : Merge L u}
    (hm : Merge.setUp L u settings sources = .ok m) (before during : List (Move u)) {p : InletId}
    {es : List (Entry L)}
    (hes : ((start m).play (before ++ during)).merge.history = ((start m).play before).merge.history ++ es)
    (ho : ((start m).play (before ++ during)).merge.inletIs p (·.isOpen) = true)
    (hcourts : ∀ e ∈ es, e.courts p = true) (hmany : 2 * sources.length ≤ (served es).length) :
    2 ≤ ((start m).play before).merge.trail.laps p es ∧
    (p ∈ served es ↔ ((start m).play before).merge.trail.overtakings p es <
      ((start m).play before).merge.trail.laps p es) := by
  have hb := Merge.play_balanced hm before
  have hc := Merge.play_coherent hm before
  have hw := Merge.play_within hm before
  have hch : Merge.Changes ((start m).play before).merge ((start m).play (before ++ during)).merge := by
    rw [play_append]
    exact play_changes during _
  have hp : p < sources.length :=
    Nat.lt_of_lt_of_le (Merge.lt_of_isOpen ho) (Merge.play_within hm (before ++ during)).inlets
  have hfair := (hch.stretch hb hc ho hes hcourts).fair
  have hlt : ∀ k ∈ served es, k < sources.length := by
    obtain ⟨es', hes', hlt⟩ := hch.served_lt hb hw
    obtain rfl := List.append_cancel_left (hes.symm.trans hes')
    intro k hk
    obtain ⟨e, he, hek⟩ := List.mem_filterMap.1 hk
    exact hlt e he k hek
  constructor
  · have hle := Trail.length_le_laps hp ((start m).play before).merge.trail es hw.turn hlt
    have hrank := rank_lt ((start m).play before).merge.trail.turn hp
    refine Nat.le_of_not_lt fun hlaps => ?_
    have hmul : sources.length * ((start m).play before).merge.trail.laps p es ≤ sources.length * 1 :=
      Nat.mul_le_mul_left _ (Nat.le_of_lt_succ hlaps)
    omega
  · rw [← List.count_pos_iff]
    omega

/-- Two sources that are always ready, under the fair strategy: in four elements each has its turns. -/
theorem play_served_iff_fair : ∃ m es,
    Merge.setUp (Strategy.fair Nat) (scripted Nat) .standard
      [.ofItems [.forever 1], .ofItems [.forever 2]] = .ok m ∧
    ((start m).play ([.request 1, .poll 40] ++ [.request 4, .poll 40])).merge.history =
      ((start m).play [.request 1, .poll 40]).merge.history ++ es ∧
    served es = [1, 0, 1, 0] ∧
    2 ≤ ((start m).play [.request 1, .poll 40]).merge.trail.laps 0 es ∧
    (0 ∈ served es ↔ ((start m).play [.request 1, .poll 40]).merge.trail.overtakings 0 es <
      ((start m).play [.request 1, .poll 40]).merge.trail.laps 0 es) := by
  have hm : Merge.setUp (Strategy.fair Nat) (scripted Nat) .standard
      [.ofItems [.forever 1], .ofItems [.forever 2]] = .ok _ := rfl
  refine ⟨_, _, hm, rfl, ?_, play_served_iff hm [.request 1, .poll 40] [.request 4, .poll 40] rfl ?_ ?_ ?_⟩
  · decide
  · decide
  · decide
  · decide

end Session

/-! ### Starvation

Two states in turn, each of which reads from one inlet of its own and from the inlet 2. While one of them is
active, the inlet of the other is read ahead; so it has an element when its own state comes, and overtakes the
inlet 2, which is never even polled. -/

/-- A strategy with two states in turn; each passes on an element of any of its inlets. -/
def toAndFro (left right : List InletId) : RuleTable where
  name := "ToAndFro"
  start := 0
  policy := .exhaust
  handles := .all
  states := [(.any left, ⟨[], [.emitElement, .goto 1]⟩), (.any right, ⟨[], [.emitElement, .goto 0]⟩)]
  policies := []
  governsEnds := false

namespace Starving

open Session

/-- Both states read from the inlet 2. -/
abbrev strategy : Strategy String String := (toAndFro [1, 2] [0, 2]).strategy

/-- Three sources that always have an element. -/
def sources : List (Script String) :=
  [.ofItems [.forever "a"], .ofItems [.forever "b"], .ofItems [.forever "c"]]

/-- Two elements are asked for, and taken when the run has been polled. -/
def round : List (Move (scripted String)) := [.request 2, .poll 40, .drain]

/-- The session between two rounds. -/
def resting (handled pulls : Nat) (journal : Array (Entry strategy)) : Session strategy (scripted String) where
  merge := {
    name := "ToAndFro", tracing := false, handles := [0, 1, 2], memory := (), state := (0 : Nat)
    policy := .exhaust
    inlets := [⟨some ⟨[.forever "a"], 0, false⟩, none, .live, pulls⟩,
      ⟨some ⟨[.forever "b"], 0, false⟩, none, .live, pulls⟩,
      ⟨some ⟨[.forever "c"], 0, false⟩, none, .live, 0⟩]
    credit := .none, turn := 1, unsent := none, handled, stage := .awaiting .read, awake := false
    link := ⟨[], 1, true, [], true, false⟩, journal }
  consumer := .present false
  handles := []

/-- What a round writes. -/
def written : List (Entry strategy) :=
  [.took (.request 2), .polled 0 (.element "a"), .polled 1 (.element "b"),
    .arrived (.any [1, 2]) 1 (.element "b"), .onElement 1 "b" (0 : Nat) (1 : Nat), .emitted "b",
    .delivered (.element "b"),
    .arrived (.any [0, 2]) 0 (.element "a"), .onElement 0 "a" (1 : Nat) (0 : Nat), .emitted "a",
    .delivered (.element "a")]

/-- The inlets when the first two have answered `pulls` times and the first one keeps `ahead`. -/
abbrev inletsWith (ahead : Option (Arrival String)) (pulls : Nat) : List (Inlet (scripted String)) :=
  [⟨some ⟨[.forever "a"], 0, false⟩, ahead, .live, pulls⟩, ⟨some ⟨[.forever "b"], 0, false⟩, none, .live, pulls⟩,
    ⟨some ⟨[.forever "c"], 0, false⟩, none, .live, 0⟩]

theorem scripted_poll (s : Script String) : (scripted String).poll s = s.poll := rfl

/-- In the first state the inlet 0 is a bystander: it is polled before the others, and what it brings is kept. -/
theorem attempt_ahead {L : Strategy String β} {m : Merge L (scripted String)} (pulls : Nat)
    (hm : m.inlets = inletsWith none pulls) :
    m.attempt [1, 2] = (some (1, .element "b"), { m with
      inlets := inletsWith (some (.element "a")) (pulls + 1)
      journal := (m.journal.push (.polled 0 (.element "a"))).push (.polled 1 (.element "b")) }) := by
  simp [hm, Merge.attempt, Merge.seek, Merge.bystanders, Merge.fillUntil, Merge.fill, Merge.call, Merge.note,
    Merge.takeFrom, Merge.putInlet, Merge.inletIs, Merge.inletIds, List.range_succ, Inlet.isOpen, Inlet.hasElement,
    Inlet.hasTerminal, Inlet.fill, Inlet.store, Inlet.take, InletStatus.isTerminal, Arrival.isTerminal,
    Arrival.ofReply?, scripted_poll, Script.poll, Script.play]

/-- In the second state what was kept is taken, and no source is polled. -/
theorem attempt_kept {L : Strategy String β} {m : Merge L (scripted String)} (pulls : Nat)
    (hm : m.inlets = inletsWith (some (.element "a")) pulls) :
    m.attempt [2, 0] = (some (0, .element "a"), { m with inlets := inletsWith none pulls }) := by
  simp [hm, Merge.attempt, Merge.seek, Merge.takeFrom, Merge.putInlet, Merge.inletIs, Inlet.hasElement, Inlet.take,
    Arrival.isTerminal]

theorem play_round (handled pulls : Nat) (journal : Array (Entry strategy)) :
    (resting handled pulls journal).play round = resting (handled + 2) (pulls + 1) (journal ++ written.toArray) := by
  -- entries are pushed one at a time
  rw [show journal ++ written.toArray = written.foldl Array.push journal by simp]
  simp [-List.foldl_push_eq_append', attempt_ahead pulls, attempt_kept (pulls + 1), written, resting, round,
    perform, request, drain, relink, Link.send, Link.heed, Link.deliver, Session.poll, Merge.poll, Merge.advance,
    Merge.step, Merge.hear, Merge.proceed, Merge.choose, Merge.read, Merge.flush, Merge.note, Merge.deliver,
    Merge.openInlets, Merge.inletIs, Inlet.isOpen, InletStatus.isTerminal, Stage.isFinal, Credit.grant,
    Credit.consume, Credit.limit, Credit.none, Choice.check, Choice.inlets, Choice.readingOrder, Choice.rotation,
    Choice.ascending, Choice.insertOnce, Choice.advances, Arrival.isTerminal, Merge.dispatch, Merge.transition,
    Merge.handling, Merge.trace, Merge.apply, Merge.follow, Merge.emit, Merge.close, Effects.ofActions, Effects.add,
    Effects.empty, toAndFro, RuleTable.apply, RuleSet.find, Instruction.applyAll, Instruction.apply]

theorem play_first_round : ∃ m, Merge.setUp strategy (scripted String) .standard sources = .ok m ∧
    (start m).play round = resting 2 1
      (#[.logged (.opened "ToAndFro" 3), .logged (.started "default")] ++ written.toArray) :=
  ⟨_, rfl, rfl⟩

/-- Between two rounds, after `n` of them, the inlet 2 is courted and the others have been served `n` times each. -/
structure Starved (n : Nat) (s : Session strategy (scripted String)) : Prop where
  resting : ∃ handled pulls journal, s = resting handled pulls journal
  courts : ∀ e ∈ s.merge.history, e.courts 2 = true
  served : served s.merge.history = (List.replicate n [1, 0]).flatten

theorem Starved.round {n : Nat} {s : Session strategy (scripted String)} (h : Starved n s) :
    Starved (n + 1) (s.play round) := by
  obtain ⟨⟨handled, pulls, journal, rfl⟩, hcourts, hserved⟩ := h
  rw [play_round]
  have hh : ∀ handled pulls j, (Starving.resting handled pulls j).merge.history = j.toList := fun _ _ _ => rfl
  rw [hh] at hcourts hserved
  refine ⟨⟨_, _, _, rfl⟩, fun e he => ?_, ?_⟩
  · rw [hh, Array.toList_append] at he
    rcases List.mem_append.1 he with he | he
    · exact hcourts e he
    · have hall : ∀ e ∈ written, e.courts 2 = true := by decide
      exact hall e he
  · rw [hh, Array.toList_append, served_append, hserved, List.replicate_succ', List.flatten_append]
    rfl

/-- **Starvation.** However long it goes on, the inlet 2 is never served. -/
theorem play_rounds : ∃ m, Merge.setUp strategy (scripted String) .standard sources = .ok m ∧
    ∀ n, Starved (n + 1) ((start m).play (List.replicate (n + 1) round).flatten) := by
  obtain ⟨m, hm, hfirst⟩ := play_first_round
  refine ⟨m, hm, fun n => ?_⟩
  induction n with
  | zero =>
    rw [List.replicate_one, List.flatten_singleton, hfirst]
    exact ⟨⟨_, _, _, rfl⟩, by decide, by decide⟩
  | succ n ih =>
    rw [List.replicate_succ', List.flatten_append, List.flatten_singleton, play_append]
    exact ih.round

end Starving

/-- Three inlets, six elements in a row, all under choices of any of some inlets that name the inlet 2, which is
open and always ready: and yet none of them is its own. -/
theorem Session.play_starves : ∃ m,
    Merge.setUp Starving.strategy (scripted String) .standard Starving.sources = .ok m ∧
    let s := (start m).play (List.replicate 3 Starving.round).flatten
    s.merge.inletIs 2 (·.isOpen) = true ∧ (∀ e ∈ s.merge.history, e.courts 2 = true) ∧
    2 * Starving.sources.length ≤ (served s.merge.history).length ∧ 2 ∉ served s.merge.history := by
  obtain ⟨m, hm, h⟩ := Starving.play_rounds
  obtain ⟨⟨handled, pulls, journal, hs⟩, hcourts, hserved⟩ := h 2
  refine ⟨m, hm, ?_, hcourts, ?_, ?_⟩
  · rw [hs]
    rfl
  · rw [hserved]
    decide
  · rw [hserved]
    decide

end StreamMerge
