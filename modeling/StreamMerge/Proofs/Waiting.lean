import StreamMerge.Proofs.Course
import StreamMerge.Proofs.Seeking

/-!
# Waiting

A run that waits has overlooked nothing. It waits for credit while there is none and no signal that could bring any;
or it waits for its sources, and then whatever could bring it an event was asked just now and has answered that it has
nothing yet (`Session.play_waits`).
-/
namespace StreamMerge

variable {α β : Type} {L : Strategy α β} {u : Source α}

/-- The signal that a source sends while it is polled. -/
def Entry.signal? : Entry L → Option Signal
  | .called _ => some .cancel
  | _ => none

/-- The run is about to read on. -/
def Stage.readsOn : Stage → Bool
  | .draining .read | .awaiting .read => true
  | _ => false

namespace Merge

/-! ## Filling in vain -/

/-- The inlet `p` keeps something, or `reads` says that its source has nothing yet. -/
def Asked (m : Merge L u) (p : InletId) (reads : List (Entry L)) : Prop :=
  m.inletIs p (·.buffer.isSome) = true ∨ ∃ again, .polled p (.pending again) ∈ reads

/-- An inlet that keeps something is left alone. -/
theorem getElem?_fill_of_kept {m : Merge L u} {p : InletId} {q : Inlet u} (hq : m.inlets[p]? = some q)
    (hb : q.buffer.isSome = true) (k : InletId) : (m.fill k).inlets[p]? = some q := by
  by_cases hk : k = p
  · subst hk
    rcases fill_cases m k with h | ⟨q', s, h⟩
    · rw [h]
      exact hq
    · obtain rfl := Option.some.inj (hq.symm.trans h.here)
      rw [h.empty] at hb
      cases hb
  · rw [getElem?_fill_of_ne hk]
    exact hq

theorem Asked.fill {m : Merge L u} {p : InletId} {reads es : List (Entry L)} (h : m.Asked p reads) (k : InletId) :
    (m.fill k).Asked p (reads ++ es) := by
  rcases h with h | ⟨again, h⟩
  · obtain ⟨q, hq, hb⟩ := inletIs_iff.1 h
    exact Or.inl (inletIs_iff.2 ⟨q, getElem?_fill_of_kept hq hb k, hb⟩)
  · exact Or.inr ⟨again, List.mem_append_left es h⟩

theorem Asked.fillUntil {p : InletId} {test : Inlet u → Bool} : ∀ {ps : List InletId} {m : Merge L u}
    {reads es : List (Entry L)}, m.Asked p reads → (fillUntil test ps m).2.Asked p (reads ++ es)
  | [], m, reads, es, h => h.imp_right fun ⟨again, h⟩ => ⟨again, List.mem_append_left es h⟩
  | k :: ps, m, reads, es, h => by
    rw [fillUntil_cons]
    split
    · exact h.fill k
    · have hk : (m.fill k).Asked p (reads ++ []) := h.fill k
      rw [List.append_nil] at hk
      exact hk.fillUntil

/-- After a poll, either something is kept or the answer was that there is nothing yet. -/
theorem Pollable.asked {m : Merge L u} {p : InletId} {es : List (Entry L)} (h : m.Pollable p)
    (hes : (m.fill p).history = m.history ++ es) : (m.fill p).Asked p es := by
  obtain ⟨q, s, hq, hb, hs⟩ := h
  have hp := fill_polls hq hb hs
  cases hk : (m.fill p).inletIs p (·.buffer.isSome) with
  | true => exact Or.inl hk
  | false =>
    obtain ⟨again, hr⟩ := hp.pending hk
    obtain rfl := List.append_cancel_left (hes.symm.trans hp.history)
    refine Or.inr ⟨again, ?_⟩
    rw [hr]
    simp

/-- Whoever is on the list is asked, if none that is asked brings what is looked for. -/
theorem asked_of_fillUntil {test : Inlet u → Bool} {p : InletId} : ∀ {ps : List InletId} {m : Merge L u}
    {es : List (Entry L)}, (fillUntil test ps m).1 = none → (fillUntil test ps m).2.history = m.history ++ es →
    p ∈ ps → m.Pollable p → (fillUntil test ps m).2.Asked p es
  | [], _, _, _, _, hp, _ => by cases hp
  | k :: ps, m, es, h, hes, hp, hpoll => by
    obtain ⟨es₁, hes₁, -⟩ := extends_fill m k
    obtain ⟨es₂, hes₂, -⟩ := extends_fillUntil test ps (m.fill k)
    rw [fillUntil_cons] at h hes ⊢
    split at h
    · cases h
    · rename_i ht
      rw [if_neg ht] at hes ⊢
      rw [hes₂, hes₁, List.append_assoc] at hes
      obtain rfl := List.append_cancel_left hes
      by_cases hk : k = p
      · subst hk
        exact (hpoll.asked hes₁).fillUntil
      · have hmem : p ∈ ps := (List.mem_cons.1 hp).resolve_left (Ne.symm hk)
        have hpoll' : (m.fill k).Pollable p := by
          obtain ⟨q, s, hq, hb, hs⟩ := hpoll
          exact ⟨q, s, (getElem?_fill_of_ne hk).trans hq, hb, hs⟩
        rcases asked_of_fillUntil h hes₂ hmem hpoll' with hkept | ⟨again, hin⟩
        · exact Or.inl hkept
        · exact Or.inr ⟨again, List.mem_append_right es₁ hin⟩

/-- What nobody on the list brought, nobody on the list has. -/
theorem inletIs_of_fillUntil {test : Inlet u → Bool} {p : InletId} : ∀ {ps : List InletId} {m : Merge L u},
    (fillUntil test ps m).1 = none → p ∈ ps → (fillUntil test ps m).2.inletIs p test = false
  | [], _, _, hp => by cases hp
  | k :: ps, m, h, hp => by
    rw [fillUntil_cons] at h ⊢
    split at h
    · cases h
    · rename_i ht
      rw [if_neg ht]
      by_cases hmem : p ∈ ps
      · exact inletIs_of_fillUntil h hmem
      · obtain rfl : p = k := (List.mem_cons.1 hp).resolve_right hmem
        unfold inletIs at ht ⊢
        rw [getElem?_fillUntil test ps _ hmem]
        exact eq_false_of_ne_true ht

/-! ## Attempts in vain -/

/-- An attempt in vain found nothing that was kept, and has gone through the bystanders and the named inlets. -/
theorem seek_eq_none {m : Merge L u} {order : List InletId} (h : (m.seek order).1 = none) :
    order.find? (m.inletIs · (·.hasElement)) = none ∧
      m.inletIds.find? (m.inletIs · fun q => q.isOpen && q.hasTerminal) = none ∧
      (fillUntil (·.hasTerminal) (m.bystanders order) m).1 = none ∧
      m.seek order = fillUntil (·.buffer.isSome) order (fillUntil (·.hasTerminal) (m.bystanders order) m).2 := by
  unfold seek at h ⊢
  split at h
  · cases h
  · rename_i hkept
    split at h
    · cases h
    · rename_i hended
      split at h
      · cases h
      · rename_i m₁ hf
        exact ⟨hkept, hended, by rw [hf], by rw [hf]⟩

/-- What the attempt in vain on `order`, from `m` to `m'`, has read. -/
structure Vain (m : Merge L u) (order : List InletId) (reads : List (Entry L)) (m' : Merge L u) : Prop where
  history : m'.history = m.history ++ reads
  isReading : ∀ e ∈ reads, isReading e
  named : ∀ p ∈ order, m'.inletIs p (·.buffer.isSome) = false
  /-- Every open inlet keeps an element, or has just answered that it has nothing yet. -/
  asked : ∀ p, m.inletIs p (·.isOpen) = true →
    m'.inletIs p (·.hasElement) = true ∨ ∃ again, .polled p (.pending again) ∈ reads

/-- An open inlet without a kept end or failure can be polled, or keeps an element. -/
theorem pollable_or_kept {m : Merge L u} (hb : m.Balanced) {p : InletId} (ho : m.inletIs p (·.isOpen) = true) :
    m.Pollable p ∨ m.inletIs p (·.buffer.isSome) = true := by
  obtain ⟨q, hq, ho⟩ := inletIs_iff.1 ho
  have hs : q.source.isSome = q.isOpen := (hb p q hq).sound.source_isSome
  rw [ho] at hs
  obtain ⟨s, hs⟩ := Option.isSome_iff_exists.1 hs
  cases hk : q.buffer with
  | none => exact Or.inl ⟨q, s, hq, hk, hs⟩
  | some a => exact Or.inr (inletIs_iff.2 ⟨q, hq, by rw [hk]; rfl⟩)

theorem hasElement_of_kept {m : Merge L u} {p : InletId} (h : m.inletIs p (·.buffer.isSome) = true)
    (ht : m.inletIs p (·.hasTerminal) = false) : m.inletIs p (·.hasElement) = true := by
  obtain ⟨q, hq, hb⟩ := inletIs_iff.1 h
  rw [inletIs_iff_of_some hq] at ht ⊢
  obtain ⟨a, ha⟩ := Option.isSome_iff_exists.1 hb
  unfold Inlet.hasTerminal at ht
  unfold Inlet.hasElement
  rw [ha] at ht ⊢
  simpa using ht

/-- **An attempt finds nothing only when there is nothing to find.** -/
theorem seek_vain {m : Merge L u} (hb : m.Balanced) {order : List InletId}
    (hopen : ∀ p ∈ order, m.inletIs p (·.isOpen) = true) (h : (m.seek order).1 = none) :
    ∃ reads, Vain m order reads (m.seek order).2 := by
  obtain ⟨hkept, hended, hnone, hseek⟩ := seek_eq_none h
  have hlive : ∀ r ∈ order, m.Live r := by
    intro r hr
    have hin : r ∈ (Choice.any order).readingOrder 0 (m.inletIs · (·.isOpen)) :=
      Choice.mem_readingOrder.2 ⟨hr, hopen r hr⟩
    exact live_of_mem hb _ hin
  have hpoll := pollable_bystanders hlive hkept hended
  obtain ⟨es₁, hes₁, hread₁⟩ := extends_fillUntil (·.hasTerminal) (m.bystanders order) m
  generalize hm₁ : (fillUntil (·.hasTerminal) (m.bystanders order) m).2 = m₁ at *
  obtain ⟨es₂, hes₂, hread₂⟩ := extends_fillUntil (·.buffer.isSome) order m₁
  rw [hseek] at h ⊢
  have hnamed : ∀ p ∈ order, (fillUntil (·.buffer.isSome) order m₁).2.inletIs p (·.buffer.isSome) = false :=
    fun p hp => inletIs_of_fillUntil h hp
  refine ⟨es₁ ++ es₂, ⟨by rw [hes₂, hes₁, List.append_assoc], fun e he => ?_, hnamed, fun p ho => ?_⟩⟩
  · rcases List.mem_append.1 he with he | he
    · exact hread₁ e he
    · exact hread₂ e he
  · by_cases hp : p ∈ order
    · rcases asked_of_fillUntil h hes₂ hp (hpoll p hp) with hk | ⟨again, hin⟩
      · rw [hnamed p hp] at hk
        cases hk
      · exact Or.inr ⟨again, List.mem_append_right es₁ hin⟩
    · -- A bystander is asked before the named inlets, and left alone from then on.
      have hby : p ∈ m.bystanders order := by
        unfold bystanders
        simp [inletIds, ho, hp, lt_of_isOpen ho]
      have hterm := inletIs_of_fillUntil hnone hby
      have hasked : m₁.Asked p es₁ := by
        rcases pollable_or_kept hb ho with hpl | hk
        · exact hm₁ ▸ asked_of_fillUntil hnone (hm₁ ▸ hes₁) hby hpl
        · have hstart : m.Asked p [] := Or.inl hk
          exact hm₁ ▸ hstart.fillUntil
      have hsame := getElem?_fillUntil (·.buffer.isSome) order m₁ hp
      rw [hm₁] at hterm
      rcases hasked with hk | ⟨again, hin⟩
      · have hel := hasElement_of_kept hk hterm
        unfold inletIs at hel ⊢
        rw [hsame]
        exact Or.inl hel
      · exact Or.inr ⟨again, List.mem_append_left es₂ hin⟩

/-! ## Signals during an attempt -/

/-- During an attempt no signals come but those that the sources send. -/
theorem signals_seek {m : Merge L u} (ha : m.link.attached = true) (order : List InletId) :
    ∃ reads, (m.seek order).2.history = m.history ++ reads ∧
      (m.seek order).2.link.signals = m.link.signals ++ reads.filterMap Entry.signal? := by
  refine (seek_induction (motive := fun m' => m'.link.attached = true ∧ ∃ reads,
    m'.history = m.history ++ reads ∧ m'.link.signals = m.link.signals ++ reads.filterMap Entry.signal?)
    (fun m' p ⟨ha', reads, hh, hs⟩ => ⟨(frame_fill m' p).attached.trans ha', ?_⟩) m order
    ⟨ha, [], by simp, by simp⟩).2
  rcases fill_cases m' p with h | ⟨q, s, h⟩
  · rw [h]
    exact ⟨reads, hh, hs⟩
  · have hcalls : (List.replicate (u.poll s).cancels (.called p) ++
        [.polled p (u.poll s).reply] : List (Entry L)).filterMap Entry.signal? =
        List.replicate (u.poll s).cancels .cancel := by
      rw [List.filterMap_append, List.filterMap_replicate_of_some
        (show (.called p : Entry L).signal? = some .cancel from rfl)]
      exact List.append_nil _
    refine ⟨reads ++ (List.replicate (u.poll s).cancels (.called p) ++ [.polled p (u.poll s).reply]),
      by rw [h.history, hh, List.append_assoc], ?_⟩
    rw [signals_fill h, if_pos ha', hs, List.filterMap_append, hcalls, List.append_assoc]

/-- While signals wait, there is a reason to poll the run. -/
def Alert (m : Merge L u) : Prop := m.link.signals ≠ [] → m.link.woken = true

theorem alert_call (p : InletId) : ∀ (n : Nat) (m : Merge L u), m.Alert → (m.call p n).Alert
  | 0, _, h => h
  | n + 1, m, h => by
    refine alert_call p n _ fun hs => ?_
    show (m.link.send .cancel).woken = true
    have hs : (m.link.send .cancel).signals ≠ [] := hs
    unfold Link.send at hs ⊢
    split
    · rfl
    · rename_i ha
      rw [if_neg ha] at hs
      exact h hs

theorem alert_fill {m : Merge L u} (h : m.Alert) (p : InletId) : (m.fill p).Alert := by
  unfold fill
  split
  · exact h
  · split
    · exact h
    · rename_i q _ r q' _
      have hcall : (({ m with inlets := m.inlets.set p q' } : Merge L u).call p r.cancels).Alert :=
        alert_call p r.cancels _ h
      dsimp only
      split
      · exact fun _ => rfl
      · exact hcall

theorem alert_seek {m : Merge L u} (h : m.Alert) (order : List InletId) : (m.seek order).2.Alert :=
  seek_induction (motive := Alert) (fun _ p h => alert_fill h p) m order h

/-! ## Reading on -/

/-- A run reads on only while some inlet is open. -/
def Busy (m : Merge L u) : Prop := m.stage.readsOn = true → m.openInlets ≠ 0

theorem openInlets_ne_zero {m : Merge L u} : m.openInlets ≠ 0 ↔ ∃ p, m.inletIs p (·.isOpen) = true := by
  unfold openInlets
  rw [Ne, List.countP_eq_zero, not_forall]
  constructor
  · rintro ⟨q, hq⟩
    obtain ⟨hq, ho⟩ := Classical.not_imp.1 hq
    obtain ⟨p, hp⟩ := List.mem_iff_getElem?.1 hq
    exact ⟨p, inletIs_iff.2 ⟨q, hp, by simpa using ho⟩⟩
  · rintro ⟨p, ho⟩
    obtain ⟨q, hq, ho⟩ := inletIs_iff.1 ho
    exact ⟨q, fun h => h (List.mem_of_getElem? hq) ho⟩

theorem Busy.of_isOpen {m m' : Merge L u} (h : m.Busy) (hst : m'.stage = m.stage)
    (ho : (m'.inletIs · (·.isOpen)) = (m.inletIs · (·.isOpen))) : m'.Busy := by
  intro hr
  rw [hst] at hr
  obtain ⟨p, hp⟩ := openInlets_ne_zero.1 (h hr)
  exact openInlets_ne_zero.2 ⟨p, (congrFun ho p).trans hp⟩

/-- After an event, the run first delivers what was emitted. -/
theorem readsOn_dispatch (m : Merge L u) (choice : Choice) (p : InletId) (a : Arrival α) :
    (m.dispatch choice p a).stage.readsOn = false := by
  obtain ⟨m₁, closing, heq, -⟩ := dispatch_close m choice p a
  rw [heq, (closed_close m₁ closing).1]
  split <;> rfl

theorem Step.busy {m m' : Merge L u} (h : Step m m') (hm : m.Busy) : m'.Busy := by
  cases h with
  | opens => exact fun h => by cases h
  | turns stage ht =>
    intro hr
    cases ht with
    | read _ _ ho => exact ho
    | await aim hst =>
      refine hm ?_
      rw [hst]
      cases aim <;> first | rfl | cases hr
    | deliver => cases hr
    | choose => cases hr
    | settle => cases hr
  | starves => exact hm
  | hears => exact hm
  | delivers => exact fun h => by cases h
  | tries m' _ _ ht =>
    intro hr
    cases ht with
    | waits choice order hst =>
      have hr : (m.seek order).2.stage.readsOn = true := hr
      rw [(frame_seek m order).stage, hst] at hr
      cases hr
    | accepts choice order p a q =>
      rw [readsOn_dispatch] at hr
      cases hr
  | ends m₁ v =>
    intro hr
    rw [(finish_spec m₁ v).stage] at hr
    cases hr
  | rests => exact hm

theorem Change.busy {m m' : Merge L u} (h : Change m m') (hm : m.Busy) : m'.Busy := by
  cases h with
  | step => exact (step_spec m).busy hm
  | rouse => exact hm
  | relink => exact hm
  | adjust p q s s' hq => exact hm.of_isOpen rfl (inletIs_isOpen_set hq rfl rfl)
  | abandon => exact fun hr => by cases hr

/-! ## Going to sleep -/

/-- A run goes to sleep without credit, or after an attempt in vain. -/
theorem Step.sleeps {m m' : Merge L u} (h : Step m m') (ha : m.awake = true) (ha' : m'.awake = false)
    (hr : m'.stage.isFinal = false) :
    (∃ aim, m.stage = .awaiting aim ∧ m.credit.isPositive = false ∧ m.link.signals = [] ∧ m.link.senders ≠ 0 ∧
      m' = { m with awake := false }) ∨
    (∃ choice order, m.stage = .attempting choice order ∧ m.link.signals = [] ∧ m.link.senders ≠ 0 ∧
      (m.seek order).1 = none ∧ m' = { (m.seek order).2 with awake := false }) := by
  cases h with
  | opens => exact absurd (ha.symm.trans ha') (by simp)
  | turns => exact absurd (ha.symm.trans ha') (by simp)
  | starves aim hst hc hs h0 => exact Or.inl ⟨aim, hst, hc, hs, h0, rfl⟩
  | hears => exact absurd (ha.symm.trans ha') (by simp)
  | delivers closing y _ _ _ hrec =>
    rw [(delivered_spec closing y hrec).awake, ha] at ha'
    cases ha'
  | tries m' hs h0 ht =>
    cases ht with
    | waits choice order hst hn => exact Or.inr ⟨choice, order, hst, hs, h0, hn, rfl⟩
    | accepts choice order p a q =>
      have hf := (frame_seek m order).trans (frame_putInlet (m.seek order).2 p q.take.2)
      cases closes_dispatch ((m.seek order).2.putInlet p q.take.2) choice p a with
      | ended hfin =>
        rw [hr] at hfin
        cases hfin
      | goesOn _ haw =>
        rw [haw, hf.awake, ha] at ha'
        cases ha'
  | ends m₁ v =>
    rw [(finish_spec m₁ v).stage] at hr
    cases hr
  | rests => exact absurd (ha.symm.trans ha') (by simp)

/-- A run that sleeps where it waits for credit has none. -/
def Dozes (m : Merge L u) : Prop := m.awake = false → ∀ aim, m.stage = .awaiting aim → m.credit.isPositive = false

theorem Step.dozes {m m' : Merge L u} (h : Step m m') (ha : m.awake = true) : m'.Dozes := by
  intro ha' aim hst'
  rcases h.sleeps ha ha' (by rw [hst']; rfl) with ⟨aim', -, hc, -, -, rfl⟩ | ⟨choice, order, hst, -, -, -, rfl⟩
  · exact hc
  · have hst' : (m.seek order).2.stage = .awaiting aim := hst'
    rw [(frame_seek m order).stage, hst] at hst'
    cases hst'

theorem Change.dozes {m m' : Merge L u} (h : Change m m') (hm : m.Dozes) : m'.Dozes := by
  cases h with
  | step ha => exact (step_spec m).dozes ha
  | rouse => exact fun ha => by cases ha
  | relink => exact hm
  | adjust => exact hm
  | abandon => exact fun _ _ hst => by cases hst

/-! ## Between two steps -/

/-- What holds of a merge between any two steps. -/
structure Regular (m : Merge L u) : Prop where
  balanced : m.Balanced
  coherent : m.Coherent
  busy : m.Busy
  attached : m.Attached
  dozes : m.Dozes

theorem Change.regular {m m' : Merge L u} (h : Change m m') (hm : m.Regular) : m'.Regular :=
  ⟨hm.balanced.acts h.acts, h.coherent hm.coherent, h.busy hm.busy, h.attached hm.attached, h.dozes hm.dozes⟩

theorem Changes.regular {m m' : Merge L u} (h : Changes m m') (hm : m.Regular) : m'.Regular :=
  h.induction (motive := Regular) (fun _ _ hch hm => hch.regular hm) hm

theorem Fresh.regular {m : Merge L u} {sources : List u.State} (h : Fresh m sources) : m.Regular := by
  refine ⟨h.balanced, h.coherent, fun hr => ?_, fun _ => ?_, fun _ aim hst => ?_⟩
  · rw [h.stage] at hr
    cases hr
  · rw [h.link]
    rfl
  · rw [h.stage] at hst
    cases hst

theorem play_regular {settings : Settings} {sources : List u.State} {m : Merge L u}
    (hm : setUp L u settings sources = .ok m) (moves : List (Move u)) :
    ((Session.start m).play moves).merge.Regular :=
  (Session.play_changes moves (Session.start m)).regular (setUp_fresh hm).regular

/-! ## The last step of a poll -/

/-- A run that was awake goes to sleep with a last step. -/
theorem advance_sleeps : ∀ (fuel : Nat) {m : Merge L u}, m.awake = true → (m.advance fuel).awake = false →
    ∃ m₁, Changes m m₁ ∧ Extends (fun _ => True) m m₁ ∧ m₁.awake = true ∧ m.advance fuel = m₁.step
  | 0, m, ha, ha' => by
    have ha' : m.awake = false := ha'
    rw [ha] at ha'
    cases ha'
  | fuel + 1, m, ha, ha' => by
    rw [advance_succ ha] at ha' ⊢
    cases hs : m.step.awake with
    | false => exact ⟨m, .refl, .refl m, ha, advance_of_asleep hs fuel⟩
    | true =>
      obtain ⟨m₁, hch, hx, ha₁, heq⟩ := advance_sleeps fuel hs ha'
      exact ⟨m₁, .head (.step m ha) hch, (step_spec m).extends.trans hx, ha₁, heq⟩

/-! ## What a run waits for -/

/-- There is no credit, and nothing was signalled by those who still could. -/
structure Starves (m : Merge L u) : Prop where
  credit : m.credit.remaining = 0
  signals : m.link.signals = []
  senders : m.link.senders ≠ 0

/-- There is credit, and the attempt that has read `reads` was in vain. -/
structure Idles (m : Merge L u) (reads : List (Entry L)) : Prop where
  credit : 0 < m.credit.remaining
  isReading : ∀ e ∈ reads, isReading e
  /-- The inlets that the present state names keep nothing, and those that are open have just answered that they
  have nothing yet. -/
  named : ∀ p ∈ (L.choice m.memory m.state).inlets, m.inletIs p (·.buffer.isSome) = false ∧
    (m.inletIs p (·.isOpen) = true → ∃ again, .polled p (.pending again) ∈ reads)
  /-- Every other open inlet keeps an element, or has just answered that it has nothing yet. -/
  bystanders : ∀ p, m.inletIs p (·.isOpen) = true → p ∉ (L.choice m.memory m.state).inlets →
    m.inletIs p (·.hasElement) = true ∨ ∃ again, .polled p (.pending again) ∈ reads
  /-- All signals were taken but those that the sources sent during the attempt, -/
  signals : m.link.signals = reads.filterMap Entry.signal?
  /-- and these are a reason to poll the run again. -/
  woken : m.link.signals ≠ [] → m.link.woken = true
  senders : m.link.senders ≠ 0

/-- A poll that led from `m` to `m'` has left the run waiting: there is nothing to deliver, some inlet is open, and the
run waits for credit or for its sources. -/
structure Waits (m m' : Merge L u) : Prop where
  unsent : m'.unsent = none
  unended : m'.openInlets ≠ 0
  reason : m'.Starves ∨ ∃ before reads, m'.history = m.history ++ before ++ reads ∧ m'.Idles reads

theorem idles_of_seek {m : Merge L u} (hm : m.Regular) {choice : Choice} {order : List InletId}
    (hst : m.stage = .attempting choice order) (hs : m.link.signals = []) (h0 : m.link.senders ≠ 0)
    (hn : (m.seek order).1 = none) :
    ∃ reads, (m.seek order).2.history = m.history ++ reads ∧
      Idles { (m.seek order).2 with awake := false } reads := by
  have hb := hm.balanced
  have hatt : m.link.attached = true := hm.attached (by rw [hst]; rfl)
  have hfit := hm.coherent.fits
  rw [hst] at hfit
  obtain ⟨-, hpos, rfl, rfl, -⟩ := hfit
  generalize ho : (L.choice m.memory m.state).readingOrder m.turn (m.inletIs · (·.isOpen)) = order at *
  have hmem : ∀ p, p ∈ order ↔ p ∈ (L.choice m.memory m.state).inlets ∧ m.inletIs p (·.isOpen) = true :=
    fun p => ho ▸ Choice.mem_readingOrder
  obtain ⟨reads, hvain⟩ := seek_vain hb (fun p hp => ((hmem p).1 hp).2) hn
  obtain ⟨reads', hh, hsig⟩ := signals_seek hatt order
  obtain rfl := List.append_cancel_left (hvain.history.symm.trans hh)
  have hf := frame_seek m order
  have hopen : ∀ p, (m.seek order).2.inletIs p (·.isOpen) = m.inletIs p (·.isOpen) :=
    fun p => congrFun (inletIs_isOpen_seek m order) p
  have hb' : (m.seek order).2.Balanced := hb.acts (works_seek m order).acts
  have hchoice : L.choice (m.seek order).2.memory (m.seek order).2.state = L.choice m.memory m.state := by
    rw [hf.memory, hf.state]
  rw [hs, List.nil_append] at hsig
  refine ⟨reads, hvain.history, ?_, hvain.isReading, fun p hp => ?_, fun p hop hp => ?_, hsig, ?_, ?_⟩
  · rw [show _ = m.credit from hf.credit]
    exact (Credit.isPositive_iff _).1 hpos
  · have hp : p ∈ (L.choice m.memory m.state).inlets := hchoice ▸ hp
    by_cases hop : m.inletIs p (·.isOpen) = true
    · have hnone := hvain.named p ((hmem p).2 ⟨hp, hop⟩)
      refine ⟨hnone, fun _ => ?_⟩
      rcases hvain.asked p hop with hel | hin
      · obtain ⟨q, hq, hel⟩ := inletIs_iff.1 hel
        obtain ⟨x, hx⟩ := Inlet.hasElement_iff.1 hel
        rw [inletIs_iff_of_some hq, hx] at hnone
        cases hnone
      · exact hin
    · -- An inlet that is not open keeps nothing either.
      refine ⟨eq_false_of_ne_true fun hk => ?_, fun hop' => absurd ((hopen p).symm.trans hop') hop⟩
      obtain ⟨q, hq, hk⟩ := inletIs_iff.1 hk
      have hqo : q.isOpen = true := (hb' p q hq).sound.isOpen_of_buffer hk
      rw [← hopen] at hop
      exact hop (inletIs_iff.2 ⟨q, hq, hqo⟩)
  · exact hvain.asked p ((hopen p).symm.trans hop)
  · have halert : m.Alert := fun h => absurd hs h
    exact alert_seek halert order
  · rw [show _ = m.link.senders from hf.senders]
    exact h0

/-- A step with which the run goes to sleep leaves it waiting. -/
theorem Regular.sleeps {m : Merge L u} (hm : m.Regular) (ha : m.awake = true) (ha' : m.step.awake = false)
    (hr : m.step.stage.isFinal = false) : Waits m m.step := by
  have hidle := (step_spec m).coherent hm.coherent ha
  have hunsent : m.step.unsent = none := by
    rcases hidle.idle ha' with hu | hf
    · exact hu
    · rw [hr] at hf
      cases hf
  rcases (step_spec m).sleeps ha ha' hr with ⟨aim, hst, hc, hs, h0, heq⟩ | ⟨choice, order, hst, hs, h0, hn, heq⟩
  · have hopen : m.openInlets ≠ 0 := by
      cases aim with
      | read => exact hm.busy (by rw [hst]; rfl)
      | deliver closing => exact absurd hst hm.coherent.not_awaiting_deliver
    rw [heq] at hunsent ⊢
    refine ⟨hunsent, hopen, Or.inl ⟨?_, hs, h0⟩⟩
    have hc : ¬ 0 < m.credit.remaining := by
      rw [← Credit.isPositive_iff, hc]
      exact Bool.false_ne_true
    exact Nat.eq_zero_of_not_pos hc
  · obtain ⟨reads, hh, hidles⟩ := idles_of_seek hm hst hs h0 hn
    have hfit := hm.coherent.fits
    rw [hst] at hfit
    obtain ⟨-, -, -, horder, hne⟩ := hfit
    obtain ⟨p, hp⟩ := List.exists_mem_of_ne_nil order hne
    have ho := (Choice.mem_readingOrder.1 (horder ▸ hp)).2
    rw [heq] at hunsent ⊢
    refine ⟨hunsent, openInlets_ne_zero.2 ⟨p, ?_⟩, Or.inr ⟨[], reads, ?_, hidles⟩⟩
    · exact (congrFun (inletIs_isOpen_seek m order) p).trans ho
    · rw [List.append_nil]
      exact hh

/-- **A poll that leaves the run waiting has overlooked nothing.** -/
theorem Regular.waits {m : Merge L u} (hm : m.Regular) (hrun : m.stage.isFinal = false) {fuel : Nat}
    (ha : (m.poll fuel).awake = false) (hr : (m.poll fuel).stage.isFinal = false) : Waits m (m.poll fuel) := by
  unfold poll at ha hr ⊢
  rw [if_neg (by rw [hrun]; exact Bool.false_ne_true)] at ha hr ⊢
  have hrouse : Change m { m with awake := true, link := m.link.heed } := .rouse m hrun
  obtain ⟨m₁, hch, ⟨before, hbefore, -⟩, ha₁, heq⟩ := advance_sleeps fuel rfl ha
  rw [heq] at ha hr ⊢
  obtain ⟨hu, ho, hreason⟩ := (hch.regular (hrouse.regular hm)).sleeps ha₁ ha hr
  refine ⟨hu, ho, hreason.imp_right ?_⟩
  rintro ⟨before', reads, hh, hidles⟩
  refine ⟨before ++ before', reads, ?_, hidles⟩
  have hbefore : m₁.history = m.history ++ before := hbefore
  rw [hh, hbefore, List.append_assoc m.history]

end Merge

/-- **A run never sleeps on work.** For every strategy, all sources and every order of moves: whenever a poll leaves the
run waiting, there is nothing that it could have done. -/
theorem Session.play_waits {settings : Settings} {sources : List u.State} {m : Merge L u}
    (hm : Merge.setUp L u settings sources = .ok m) (moves : List (Move u)) (fuel : Nat)
    (hrun : ((start m).play moves).merge.stage.isFinal = false)
    (hasleep : (((start m).play moves).merge.poll fuel).awake = false)
    (hpending : (((start m).play moves).merge.poll fuel).stage.isFinal = false) :
    ((start m).play moves).merge.Waits (((start m).play moves).merge.poll fuel) :=
  (Merge.play_regular hm moves).waits hrun hasleep hpending

/-- The first source has brought its element, the second one has nothing yet, and the third one is at its gate: the run
waits for sources. Without the request it waits for credit. -/
theorem Session.play_waits_fair : ∃ m,
    Merge.setUp (Strategy.fair Nat) (scripted Nat) .standard
      [.ofItems [.element 1, .gate], .ofItems [.pend 9], .ofItems [.gate]] = .ok m ∧
    (((start m).play [.request 2]).merge.stage.isFinal = false ∧
      (((start m).play [.request 2]).merge.poll 20).awake = false ∧
      (((start m).play [.request 2]).merge.poll 20).stage.isFinal = false) ∧
    ((start m).play [.request 2]).merge.Waits (((start m).play [.request 2]).merge.poll 20) ∧
    (((start m).play [.request 2]).merge.poll 20).sent = [1] ∧
    ((start m).play []).merge.Waits (((start m).play []).merge.poll 20) := by
  have hm : Merge.setUp (Strategy.fair Nat) (scripted Nat) .standard
      [.ofItems [.element 1, .gate], .ofItems [.pend 9], .ofItems [.gate]] = .ok _ := rfl
  exact ⟨_, hm, ⟨rfl, rfl, rfl⟩, play_waits hm [.request 2] 20 rfl rfl rfl, rfl, play_waits hm [] 20 rfl rfl rfl⟩

end StreamMerge
