import StreamMerge.Proofs.Lossless

/-!
# What the consumer is told

As long as the consumer receives, the elements delivered to it are those that the transitions emitted, in order,
but for one that is still to be sent; and the last thing it is told agrees with the verdict of the run.
-/
namespace StreamMerge

variable {α β : Type} {L : Strategy α β} {u : Source α}

namespace Merge

/-! ## Sending -/

/-- `m'` has sent `ds` to the consumer beyond what `m` has. -/
structure Sends (m m' : Merge L u) (ds : List (Delivery β)) : Prop where
  deliveries : m'.deliveries = m.deliveries ++ ds
  queue : m'.link.deliveries = m.link.deliveries ++ ds
  receiving : m'.link.receiving = m.link.receiving

section
variable {m m' m'' : Merge L u} {ds ds' : List (Delivery β)}

theorem Sends.trans (h : Sends m m' ds) (h' : Sends m' m'' ds') : Sends m m'' (ds ++ ds') :=
  ⟨by rw [h'.deliveries, h.deliveries, List.append_assoc], by rw [h'.queue, h.queue, List.append_assoc],
    h'.receiving.trans h.receiving⟩

theorem Sends.refl (m : Merge L u) : Sends m m [] := ⟨by simp, by simp, rfl⟩

/-- Nothing is sent. -/
theorem Sends.of_extends (hx : Extends (fun e => e.delivered? = none) m m')
    (hq : m'.link.deliveries = m.link.deliveries) (hr : m'.link.receiving = m.link.receiving) :
    Sends m m' [] :=
  ⟨(hx.filterMap_eq fun _ he => he).trans (List.append_nil _).symm, hq.trans (List.append_nil _).symm, hr⟩

end

theorem delivered?_of_isReading {e : Entry L} (h : isReading e) : e.delivered? = none := by
  cases e <;> first | rfl | cases h

theorem delivered?_of_isRelease {e : Entry L} (h : isRelease e) : e.delivered? = none := by
  cases e <;> first | rfl | cases h

theorem sends_finish (m : Merge L u) (v : Verdict) :
    Sends m (m.finish v) (if m.link.receiving then (farewell v).toList else []) :=
  ⟨(finish_spec m v).deliveries, (finish_spec m v).queue, (finish_spec m v).receiving⟩

/-- What a run that stands as `m` does has to say to its consumer by way of farewell. -/
def parting (m : Merge L u) : List (Delivery β) := (m.verdict?.bind farewell).toList

theorem verdict?_of_isFinal {m : Merge L u} (h : m.stage.isFinal = false) : m.verdict? = none := by
  unfold verdict?
  cases hst : m.stage <;> first | rfl | (rw [hst] at h; cases h)

theorem parting_of_isFinal {m : Merge L u} (h : m.stage.isFinal = false) : m.parting = [] := by
  unfold parting; rw [verdict?_of_isFinal h]; rfl

theorem parting_of_stage {m m' : Merge L u} (h : m'.stage = m.stage) : m'.parting = m.parting := by
  unfold parting verdict?; rw [h]

theorem parting_finish (m : Merge L u) (v : Verdict) : (m.finish v).parting = (farewell v).toList := by
  unfold parting verdict?; rw [(finish_spec m v).stage]; rfl

theorem sends_close (m : Merge L u) (closing : Option Closing) :
    Sends m (m.close closing) (if m.link.receiving then (m.close closing).parting else []) := by
  unfold close
  split
  · exact ⟨by simp [parting, verdict?]; rfl, by simp [parting, verdict?], rfl⟩
  · exact ⟨by simp [parting, verdict?]; rfl, by simp [parting, verdict?], rfl⟩
  · rw [parting_finish]
    exact sends_finish m _

/-- A dispatch sends nothing until it closes, and leaves the link alone. -/
theorem dispatch_close (m : Merge L u) (choice : Choice) (p : InletId) (a : Arrival α) :
    ∃ m₁ closing, m.dispatch choice p a = m₁.close closing ∧ Sends m m₁ [] ∧ m₁.link = m.link := by
  have h := accept_spec m choice p a
  obtain ⟨rs, hrs, hlog⟩ := h.history
  have hs : Sends m (m.accept choice p a) [] := by
    refine .of_extends ⟨_, hrs, fun e he => ?_⟩ (by rw [h.link]) (by rw [h.link])
    rcases List.mem_cons.1 he with rfl | he
    · rfl
    · rcases List.mem_append.1 he with he | he
      · have := isCall_handling he
        cases e <;> first | rfl | cases this
      · obtain ⟨r, rfl⟩ := hlog e he
        rfl
  rw [dispatch_eq, apply_eq]
  split
  · exact ⟨(m.accept choice p a).log _, some (.fail _), rfl,
      hs.trans (.of_extends (extends_note _ (e := .logged _) rfl) rfl rfl), h.link⟩
  · have hset := settled_spec (m.accept choice p a) (.ofActions (m.transition p a).actions)
      (m.transition p a).next
    obtain ⟨rs, hrs, hok⟩ := hset.history
    refine ⟨_, _, rfl, hs.trans (.of_extends ⟨_, hrs, fun e he => ?_⟩ (by rw [hset.link]) (by rw [hset.link])),
      hset.link.trans h.link⟩
    rcases List.mem_append.1 he with he | he
    · exact delivered?_of_isRelease (hok e he)
    · obtain ⟨y, -, rfl⟩ := Option.map_eq_some_iff.1 (Option.mem_toList.1 he)
      rfl

/-! ## Deliveries and emissions -/

/-- What was delivered is what was emitted, but for what is unsent, and the farewell. -/
def Truthful (m : Merge L u) : Prop :=
  ∃ sent, m.deliveries = sent.map .element ++ m.parting ∧ m.emissions = sent ++ m.unsent.toList

theorem Fresh.truthful {m : Merge L u} {sources : List u.State} (h : Fresh m sources) : m.Truthful := by
  refine ⟨[], ?_, ?_⟩
  · rw [parting_of_isFinal (by rw [h.stage]; rfl), deliveries, h.history]
    rfl
  · rw [h.unsent, emissions, h.history]
    rfl

theorem emissions_of_extends {m m' : Merge L u} (h : Extends (fun e => e.emitted? = none) m m') :
    m'.emissions = m.emissions :=
  h.filterMap_eq fun _ he => he

theorem emitted?_of_isSideline {e : Entry L} (h : e.isSideline) : e.emitted? = none := by
  cases e <;> first | rfl | cases h

theorem emitted?_of_isReading {e : Entry L} (h : isReading e) : e.emitted? = none := by
  cases e <;> first | rfl | cases h

/-- Changes that send and emit nothing keep the account of deliveries. -/
theorem Truthful.of_sends {m m' : Merge L u} (h : m.Truthful) (hs : Sends m m' []) (hp : m'.parting = m.parting)
    (he : m'.emissions = m.emissions) (hu : m'.unsent = m.unsent) : m'.Truthful := by
  obtain ⟨sent, hd, hem⟩ := h
  exact ⟨sent, by rw [hs.deliveries, List.append_nil, hd, hp], by rw [he, hu, hem]⟩

theorem Ends.isFinal {m m' : Merge L u} {v : Verdict} (h : Ends m m' v) : m.stage.isFinal = false := by
  cases h with
  | withdrawn rest h => exact h
  | deserted h => exact h
  | undeliverable closing y h => exact h.isFinal
  | completed closing h => rw [h]; rfl
  | refused violation h => exact h.isFinal
  | stuck h => exact h.isFinal

theorem Ends.sends {m m' : Merge L u} {v : Verdict} (h : Ends m m' v) : Sends m m' [] := by
  cases h with
  | withdrawn rest =>
    exact .of_extends (extends_note { m with link := { m.link with signals := rest } } (e := .took .cancel) rfl)
      rfl rfl
  | stuck => exact .of_extends (extends_note m (e := .logged _) rfl) rfl rfl
  | _ => exact ⟨(List.append_nil _).symm, (List.append_nil _).symm, rfl⟩

theorem Truthful.ends {m m' : Merge L u} {v : Verdict} (ht : m.Truthful) (h : Ends m m' v)
    (hr : m.link.receiving = true) : (m'.finish v).Truthful := by
  obtain ⟨sent, hd, hem⟩ := ht
  have hs := h.sends
  have hf := finish_spec m' v
  have hu : m'.unsent = m.unsent := by
    cases h with
    | undeliverable closing y _ _ _ hr' => rw [hr] at hr'; cases hr'
    | _ => rfl
  refine ⟨sent, ?_, ?_⟩
  · rw [hf.deliveries, hs.deliveries, hs.receiving, hr, if_pos rfl, hd, parting_of_isFinal h.isFinal,
      parting_finish, List.append_nil, List.append_nil]
  · have hx : Extends Entry.isSideline m (m'.finish v) :=
      h.sideline.trans (hf.history.mono fun _ => Entry.isSideline_of_isClosing)
    rw [emissions_of_extends (hx.mono fun _ => emitted?_of_isSideline), hem,
      show (m'.finish v).unsent = m'.unsent from unsent_of_core hf.core, hu]

theorem emissions_of_serves {m m' : Merge L u} {choice : Choice} {p : InletId} {a : Arrival α}
    {reads outcome : List (Entry L)} (h : Serves m choice p a reads outcome m') :
    m'.emissions = m.emissions ++ (m.transition p a).emission?.toList := by
  have hreads : reads.filterMap Entry.emitted? = [] := by
    refine List.filterMap_eq_nil_iff.2 fun e he => ?_
    rcases h.isRead e he with h | rfl
    · exact emitted?_of_isReading h
    · rfl
  have hcall : (m.handling p a (m.transition p a).next).toList.filterMap Entry.emitted? = [] := by
    unfold handling
    split <;> rfl
  rw [emissions, h.history, List.filterMap_append, List.filterMap_append, hreads, List.append_nil,
    List.filterMap_cons_none rfl, List.filterMap_append, hcall, List.nil_append, h.emitted]
  rfl

theorem Turns.isFinal {m : Merge L u} {stage : Stage} (h : Turns m stage) : m.stage.isFinal = false := by
  cases h with
  | deliver closing h => rw [h]; rfl
  | read h => rw [h]; rfl
  | await aim h => rw [h]; rfl
  | choose order h => exact h.isFinal
  | settle closing h => exact h.isFinal

theorem Turns.isFinal_next {m : Merge L u} {stage : Stage} (h : Turns m stage) : stage.isFinal = false := by
  cases h <;> rfl

theorem Truthful.tries {m m' : Merge L u} (ht : m.Truthful) (h : Tries m m') (hb : m.Balanced) (hc : m.Coherent)
    (hr : m.link.receiving = true) : m'.Truthful := by
  cases h with
  | waits choice order hst =>
    have hf := frame_seek m order
    have hx := extends_seek m order
    exact ht.of_sends (.of_extends (hx.mono fun _ => delivered?_of_isReading) hf.deliveries hf.receiving)
      (parting_of_stage hf.stage) (emissions_of_extends (hx.mono fun _ => emitted?_of_isReading)) hf.unsent
  | accepts choice order p a q hst hp hq ha =>
    obtain ⟨sent, hd, hem⟩ := ht
    have hf := (frame_seek m order).trans (frame_putInlet (m.seek order).2 p q.take.2)
    have hx := ((extends_seek m order).mono fun _ => delivered?_of_isReading).trans
      ((extends_putInlet (m.seek order).2 p q.take.2).mono fun e he => by rw [he]; rfl)
    have hs := Sends.of_extends hx hf.deliveries hf.receiving
    obtain ⟨reads, outcome, hserves⟩ := serves_of_found hb hst hp hq ha
    obtain ⟨m₁, closing, heq, hs₁, -⟩ := dispatch_close ((m.seek order).2.putInlet p q.take.2) choice p a
    have hu : m.unsent = none := hc.unsent_of_attempting hst
    refine ⟨sent, ?_, ?_⟩
    · have hsc := (hs.trans hs₁).trans (sends_close m₁ closing)
      rw [heq, hsc.deliveries, (hs.trans hs₁).receiving, hr, if_pos rfl, hd,
        parting_of_isFinal (by rw [hst]; rfl), List.append_nil]
      rfl
    · rw [emissions_of_serves hserves, hem, hserves.unsent, hu]
      simp

theorem Step.truthful {m m' : Merge L u} (h : Step m m') (ht : m.Truthful) (hb : m.Balanced) (hc : m.Coherent)
    (hr : m.link.receiving = true) : m'.Truthful := by
  cases h with
  | opens hst =>
    exact ht.of_sends (.of_extends (extends_opening (fun e => e.delivered? = none) m rfl rfl) rfl rfl)
      ((parting_of_isFinal rfl).trans (parting_of_isFinal (by rw [hst]; rfl)).symm)
      (emissions_of_extends (extends_opening (fun e => e.emitted? = none) m rfl rfl)) rfl
  | turns stage hturn =>
    refine ht.of_sends (.of_extends (.of_eq rfl) rfl rfl) ?_ (emissions_of_extends (.of_eq rfl)) rfl
    rw [parting_of_isFinal hturn.isFinal, parting_of_isFinal hturn.isFinal_next]
  | starves =>
    exact ht.of_sends (.of_extends (.of_eq rfl) rfl rfl) rfl (emissions_of_extends (.of_eq rfl)) rfl
  | hears n rest =>
    have hx : Extends (fun e : Entry L => e.delivered? = none ∧ e.emitted? = none) m
        ({ m with credit := m.credit.grant n, link := { m.link with signals := rest } }.note (.took (.request n))) :=
      extends_note { m with credit := m.credit.grant n, link := { m.link with signals := rest } } ⟨rfl, rfl⟩
    exact ht.of_sends (.of_extends (hx.mono fun _ h => h.1) rfl rfl) rfl
      (emissions_of_extends (hx.mono fun _ h => h.2)) rfl
  | delivers closing y haim _ hu =>
    obtain ⟨sent, hd, hem⟩ := ht
    have hs := delivered_spec closing y hr
    have hquiet := emissions_of_extends (hs.extends_of (fun e => e.emitted? = none) rfl)
    refine ⟨sent ++ [y], hs.deliveries.trans ?_, hquiet.trans ?_⟩
    · rw [hd, parting_of_isFinal haim.isFinal, parting_of_isFinal rfl, List.map_append, List.append_nil,
        List.append_nil]
      rfl
    · rw [hem, hu, hs.unsent]
      simp
  | tries m' _ _ h => exact ht.tries h hb hc hr
  | ends m₁ v h => exact ht.ends h hr
  | rests => exact ht

/-! ## Runs of a receiving consumer -/

theorem Tries.sends {m m' : Merge L u} (h : Tries m m') : ∃ ds, Sends m m' ds := by
  cases h with
  | waits choice order =>
    have hf := frame_seek m order
    exact ⟨[], .of_extends ((extends_seek m order).mono fun _ => delivered?_of_isReading) hf.deliveries hf.receiving⟩
  | accepts choice order p a q =>
    have hf := (frame_seek m order).trans (frame_putInlet (m.seek order).2 p q.take.2)
    have hx := ((extends_seek m order).mono fun _ => delivered?_of_isReading).trans
      ((extends_putInlet (m.seek order).2 p q.take.2).mono fun e he => by rw [he]; rfl)
    obtain ⟨m₁, closing, heq, hs₁, -⟩ := dispatch_close ((m.seek order).2.putInlet p q.take.2) choice p a
    rw [heq]
    exact ⟨_, ((Sends.of_extends hx hf.deliveries hf.receiving).trans hs₁).trans (sends_close m₁ closing)⟩

/-- Whatever a step delivers, it notes and puts into the queue. -/
theorem Step.sends {m m' : Merge L u} (h : Step m m') : ∃ ds, Sends m m' ds := by
  cases h with
  | opens =>
    exact ⟨[], .of_extends (extends_opening (fun e => e.delivered? = none) m rfl rfl) rfl rfl⟩
  | turns => exact ⟨[], .of_extends (.of_eq rfl) rfl rfl⟩
  | starves => exact ⟨[], .of_extends (.of_eq rfl) rfl rfl⟩
  | hears n rest =>
    exact ⟨[], .of_extends (extends_note { m with
      credit := m.credit.grant n, link := { m.link with signals := rest } } (e := .took (.request n)) rfl) rfl rfl⟩
  | delivers closing y _ _ _ hr =>
    have hs := delivered_spec closing y hr
    exact ⟨[.element y], hs.deliveries, by rw [hs.link], by rw [hs.link]⟩
  | tries m' _ _ h => exact h.sends
  | ends m₁ v h => exact ⟨_, h.sends.trans (sends_finish m₁ v)⟩
  | rests => exact ⟨[], .refl m⟩

theorem Change.receiving {m m' : Merge L u} (h : Change m m') (hr : m'.link.receiving = true) :
    m.link.receiving = true := by
  cases h with
  | step =>
    obtain ⟨ds, hs⟩ := (step_spec m).sends
    rw [← hs.receiving]
    exact hr
  | rouse => exact hr
  | relink k hk => exact hk.receiving hr
  | adjust => exact hr
  | abandon =>
    rw [← (frame_releaseAll m).receiving]
    exact hr

theorem Changes.receiving {m m' : Merge L u} (h : Changes m m') (hr : m'.link.receiving = true) :
    m.link.receiving = true := by
  induction h with
  | refl => exact hr
  | tail _ hc ih => exact ih (hc.receiving hr)

theorem Change.truthful {m m' : Merge L u} (h : Change m m') (hb : m.Balanced) (hc : m.Coherent)
    (hr : m.link.receiving = true) (ht : m.Truthful) : m'.Truthful := by
  cases h with
  | step => exact (step_spec m).truthful ht hb hc hr
  | rouse => exact ht
  | relink => exact ht
  | adjust => exact ht
  | abandon hf =>
    obtain ⟨sent, hd, hem⟩ := ht
    have hx := extends_releaseAll m
    have hdel : m.releaseAll.deliveries = m.deliveries := hx.filterMap_eq fun e ⟨p, he⟩ => he ▸ rfl
    have hem' : m.releaseAll.emissions = m.emissions := hx.filterMap_eq fun e ⟨p, he⟩ => he ▸ rfl
    refine ⟨sent, hdel.trans (hd.trans ?_), hem'.trans (hem.trans ?_)⟩
    · rw [parting_of_isFinal hf]
      rfl
    · exact congrArg (sent ++ ·.toList) (frame_releaseAll m).unsent.symm

theorem play_truthful {settings : Settings} {sources : List u.State} {m : Merge L u}
    (hm : setUp L u settings sources = .ok m) (moves : List (Move u))
    (hr : ((Session.start m).play moves).merge.link.receiving = true) :
    ((Session.start m).play moves).merge.Truthful :=
  play_invariant (motive := fun m => m.link.receiving = true → m.Truthful) hm (fun _ => (setUp_fresh hm).truthful)
    (fun h hb hc ht hr => h.truthful hb hc (h.receiving hr) (ht (h.receiving hr))) moves hr

/-! ## Attached runs -/

/-- The run takes signals until it ends. -/
def Attached (m : Merge L u) : Prop := m.stage.isFinal = false → m.link.attached = true

theorem Step.attached {m m' : Merge L u} (h : Step m m') (ha : m.Attached) : m'.Attached := by
  cases h with
  | opens hst => exact fun _ => ha (by rw [hst]; rfl)
  | turns stage ht => exact fun _ => ha ht.isFinal
  | starves => exact ha
  | hears => exact ha
  | delivers closing y haim _ _ hr =>
    intro _
    rw [(delivered_spec closing y hr).link]
    exact ha haim.isFinal
  | tries m' _ _ ht =>
    cases ht with
    | waits choice order hst =>
      have hf := frame_seek m order
      exact fun _ => hf.attached.trans (ha (by rw [hst]; rfl))
    | accepts choice order p a q hst =>
      intro hr
      cases closes_dispatch ((m.seek order).2.putInlet p q.take.2) choice p a with
      | ended hf =>
        rw [hr] at hf
        cases hf
      | goesOn _ _ hl =>
        rw [hl, link_putInlet, (frame_seek m order).attached]
        exact ha (by rw [hst]; rfl)
  | ends m₁ v =>
    intro hr
    rw [(finish_spec m₁ v).stage] at hr
    cases hr
  | rests => exact ha

theorem Change.attached {m m' : Merge L u} (h : Change m m') (ha : m.Attached) : m'.Attached := by
  cases h with
  | step => exact (step_spec m).attached ha
  | rouse => exact ha
  | relink k hk => exact fun hr => hk.attached.trans (ha hr)
  | adjust => exact ha
  | abandon => exact fun hr => (by cases hr)

theorem play_attached {settings : Settings} {sources : List u.State} {m : Merge L u}
    (hm : setUp L u settings sources = .ok m) (moves : List (Move u)) :
    ((Session.start m).play moves).merge.Attached :=
  play_induction hm (fun _ _ h _ => by rw [h.link]; rfl) (fun _ _ h ha => h.attached ha) moves

/-! ## The last emission -/

/-- What is unsent was emitted after the last event arrived. -/
def EmittedLast (m : Merge L u) : Prop := ∀ y, m.unsent = some y →
  ∃ pre post, m.history = pre ++ .emitted y :: post ∧ ∀ e ∈ post, ¬ e.isArrival

theorem EmittedLast.of_extends {m m' : Merge L u} (h : m.EmittedLast) (hx : Extends (¬ ·.isArrival) m m')
    (hu : m'.unsent = m.unsent ∨ m'.unsent = none) : m'.EmittedLast := by
  intro y hy
  rcases hu with hu | hu
  · obtain ⟨pre, post, hh, hpost⟩ := h y (hu ▸ hy)
    obtain ⟨es, hes, hok⟩ := hx
    refine ⟨pre, post ++ es, by rw [hes, hh]; simp, fun e he => ?_⟩
    rcases List.mem_append.1 he with he | he
    · exact hpost e he
    · exact hok e he
  · rw [hu] at hy
    cases hy

/-- The member that a list with one image has it from. -/
theorem split_filterMap_singleton {γ δ : Type} {f : γ → Option δ} {d : δ} : ∀ {xs : List γ},
    xs.filterMap f = [d] → ∃ pre x post, xs = pre ++ x :: post ∧ f x = some d
  | [], h => by cases h
  | x :: xs, h => by
    cases hx : f x with
    | none =>
      rw [List.filterMap_cons_none hx] at h
      obtain ⟨pre, y, post, rfl, hy⟩ := split_filterMap_singleton h
      exact ⟨x :: pre, y, post, rfl, hy⟩
    | some d' =>
      rw [List.filterMap_cons_some hx] at h
      obtain ⟨rfl, -⟩ := List.cons.inj h
      exact ⟨[], x, xs, rfl, hx⟩

/-- A list that begins with another one once both are mapped, begins with it. -/
theorem append_of_map {γ δ : Type} {f : γ → δ} (hf : ∀ x y, f x = f y → x = y) {xs ys : List γ} {rest : List δ}
    (h : xs.map f = ys.map f ++ rest) : ∃ zs, xs = ys ++ zs ∧ rest = zs.map f := by
  obtain ⟨ys', zs, rfl, hys, rfl⟩ := List.map_eq_append_iff.1 h
  exact ⟨zs, by rw [(List.map_inj_right hf).1 hys], rfl⟩

end Merge
end StreamMerge
