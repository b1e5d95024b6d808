import StreamMerge.Proofs.Bare
import StreamMerge.Proofs.Seeking

/-!
# Sources that answer at once

A `Source.Prompt` source has an answer to every poll, never calls for cancellation and comes to its end. A merge of
such sources never waits for them: a poll with enough steps goes on until the run has ended, or has delivered
everything that was asked for (`advance_rests`). Each step takes a signal, brings the run nearer to its next event, or
handles one of the events that are `Due`.
-/
namespace StreamMerge

variable {α β : Type} {L : Strategy α β} {u : Source α}

/-! ## Prompt sources -/

/-- The source answers every poll at once, never calls for cancellation, and brings at most `n` elements before it
ends or fails. -/
inductive Source.Prompt (u : Source α) : u.State → Nat → Prop
  | ended (s : u.State) (n : Nat) : (u.poll s).reply = .ended → (u.poll s).cancels = 0 → Prompt u s n
  | failed (s : u.State) (n : Nat) (c : Cause) : (u.poll s).reply = .failed c → (u.poll s).cancels = 0 → Prompt u s n
  | element (s : u.State) (n : Nat) (x : α) : (u.poll s).reply = .element x → (u.poll s).cancels = 0 →
      Prompt u (u.poll s).next n → Prompt u s (n + 1)

/-- A list of elements is a prompt source. -/
theorem Script.prompt_ofList : ∀ xs : List α, (scripted α).Prompt (ofList xs) xs.length
  | [] => .ended _ _ rfl rfl
  | x :: xs => .element _ _ x rfl rfl (prompt_ofList xs)

namespace Inlet

/-- At most `n` more events come from the inlet, each of them at once. -/
inductive Due (q : Inlet u) : Nat → Prop
  | closed (n : Nat) : q.source = none → q.buffer = none → Due q n
  | empty (n : Nat) (s : u.State) : q.source = some s → q.buffer = none → u.Prompt s n → Due q (n + 1)
  | element (n : Nat) (s : u.State) (x : α) : q.source = some s → q.buffer = some (.element x) → u.Prompt s n →
      Due q (n + 2)
  | terminal (n : Nat) (a : Arrival α) : q.buffer = some a → a.isTerminal = true → Due q (n + 1)

theorem due_new {n : Nat} {s : u.State} (h : u.Prompt s n) : (new s).Due (n + 1) := .empty n s rfl rfl h

theorem due_release (q : Inlet u) (n : Nat) : q.release.2.Due n := .closed n rfl rfl

/-- What a poll brings was due. -/
theorem Due.fill {q : Inlet u} {n : Nat} {s : u.State} (h : q.Due n) (hb : q.buffer = none) (hs : q.source = some s) :
    (q.store (u.poll s)).Due n ∧ (u.poll s).reply.isReady = true ∧ (u.poll s).cancels = 0 := by
  cases h with
  | closed _ hn =>
    rw [hs] at hn
    cases hn
  | empty n s' hs' _ hp =>
    obtain rfl := Option.some.inj (hs.symm.trans hs')
    have hsrc := source_store q (u.poll s)
    have hbuf := buffer_store hb (u.poll s)
    cases hp with
    | ended _ _ hr hc => exact ⟨.terminal n .completed (hbuf.trans (by rw [hr]; rfl)) rfl, by rw [hr]; rfl, hc⟩
    | failed _ _ c hr hc => exact ⟨.terminal n (.failed c) (hbuf.trans (by rw [hr]; rfl)) rfl, by rw [hr]; rfl, hc⟩
    | element _ k x hr hc hp => exact ⟨.element k _ x hsrc (hbuf.trans (by rw [hr]; rfl)) hp, by rw [hr]; rfl, hc⟩
  | element _ _ x _ hx =>
    rw [hb] at hx
    cases hx
  | terminal _ a ha =>
    rw [hb] at ha
    cases ha

/-- Of what is due, one is taken. -/
theorem Due.take {q : Inlet u} {n : Nat} {a : Arrival α} (h : q.Due n) (ha : q.buffer = some a) :
    ∃ k, n = k + 1 ∧ q.take.2.Due k := by
  have hclosed : ∀ k, a.isTerminal = true → q.take.2.Due k := by
    intro k ht
    unfold Inlet.take
    rw [ha]
    cases a with
    | element x => cases ht
    | completed => exact .closed k rfl rfl
    | failed c => exact .closed k rfl rfl
  cases h with
  | closed _ _ hb =>
    rw [ha] at hb
    cases hb
  | empty _ _ _ hb =>
    rw [ha] at hb
    cases hb
  | element k s x hs hx hp => exact ⟨k + 1, rfl, by rw [take_element hx]; exact .empty k s hs rfl hp⟩
  | terminal k a' ha' ht =>
    obtain rfl := Option.some.inj (ha.symm.trans ha')
    exact ⟨k, rfl, hclosed k ht⟩

end Inlet

namespace Merge

/-! ## What is due -/

/-- How many more events come from each inlet at most. -/
def Due (m : Merge L u) (ns : List Nat) : Prop :=
  ∀ (p : InletId) (q : Inlet u), m.inlets[p]? = some q → ∃ n, ns[p]? = some n ∧ q.Due n

/-- An entry that says nothing about a source having had to be waited for. -/
def isPrompt : Entry L → Prop
  | .polled _ reply => reply.isReady = true
  | _ => True

section
variable {m m' : Merge L u} {ns : List Nat}

theorem Due.released (h : m.Due ns)
    (hi : ∀ k : InletId, m'.inlets[k]? = m.inlets[k]? ∨ m'.inlets[k]? = m.inlets[k]?.map (·.release.2)) :
    m'.Due ns := by
  intro p q' hq'
  rcases hi p with hp | hp
  · exact h p q' (hp.symm.trans hq')
  · rw [hp] at hq'
    obtain ⟨q, hq, rfl⟩ := Option.map_eq_some_iff.1 hq'
    obtain ⟨n, hn, -⟩ := h p q hq
    exact ⟨n, hn, q.due_release n⟩

theorem Due.congr (h : m.Due ns) (hi : m'.inlets = m.inlets) : m'.Due ns :=
  h.released fun _ => Or.inl (by rw [hi])

/-- Where one inlet changes, the rest stays due. -/
theorem Due.set {p : InletId} {q q' : Inlet u} {ns' : List Nat} {n : Nat} (h : m.Due ns) (hq : m.inlets[p]? = some q)
    (hi : m'.inlets = m.inlets.set p q') (hn : ns'[p]? = some n) (hd : q'.Due n)
    (hrest : ∀ k : InletId, p ≠ k → ns'[k]? = ns[k]?) : m'.Due ns' := by
  intro k q₁ hk
  rw [hi, List.getElem?_set] at hk
  by_cases hp : p = k
  · subst hp
    rw [if_pos rfl, if_pos (List.getElem?_eq_some_iff.1 hq).1] at hk
    obtain rfl := Option.some.inj hk
    exact ⟨n, hn, hd⟩
  · rw [if_neg hp] at hk
    obtain ⟨n', hn', hd'⟩ := h k q₁ hk
    exact ⟨n', (hrest k hp).trans hn', hd'⟩

end

/-- What reading does to a merge of prompt sources: what was due is due, nobody cancels, and every answer is there. -/
structure Reads (m : Merge L u) (ns : List Nat) (m' : Merge L u) : Prop where
  due : m'.Due ns
  signals : m'.link.signals = m.link.signals
  prompt : Extends isPrompt m m'

theorem Due.reads_fill {m : Merge L u} {ns : List Nat} (h : m.Due ns) (p : InletId) : Reads m ns (m.fill p) := by
  rcases fill_cases m p with hf | ⟨q, s, hf⟩
  · rw [hf]
    exact ⟨h, rfl, .refl m⟩
  · obtain ⟨n, hn, hd⟩ := h p q hf.here
    obtain ⟨hd', hready, hquiet⟩ := hd.fill hf.empty hf.source
    refine ⟨h.set hf.here hf.inlets hn hd' fun _ _ => rfl, ?_, ⟨_, hf.history, fun e he => ?_⟩⟩
    · rw [signals_fill hf, hquiet]
      simp
    · rcases List.mem_append.1 he with he | he
      · rw [List.eq_of_mem_replicate he]
        trivial
      · rw [List.mem_singleton.1 he]
        exact hready

theorem Due.reads_seek {m : Merge L u} {ns : List Nat} (h : m.Due ns) (order : List InletId) :
    Reads m ns (m.seek order).2 := by
  refine seek_induction (motive := Reads m ns) (fun m' p hm' => ?_) m order ⟨h, rfl, .refl m⟩
  have hf := hm'.due.reads_fill p
  exact ⟨hf.due, hf.signals.trans hm'.signals, hm'.prompt.trans hf.prompt⟩

/-- An attempt on prompt sources finds an event. -/
theorem Due.found {m : Merge L u} {ns : List Nat} (h : m.Due ns) {order : List InletId} (hlive : ∀ r ∈ order, m.Live r)
    (hne : order ≠ []) : (m.seek order).1 ≠ none := by
  intro hnone
  obtain ⟨es, k, again, hes⟩ := seek_none hlive hne hnone
  obtain ⟨es', hes', hok⟩ := (h.reads_seek order).prompt
  rw [hes, List.append_assoc] at hes'
  obtain rfl := List.append_cancel_left hes'
  have hready : (Reply.pending (α := α) again).isReady = true := hok (.polled k (.pending again)) (by simp)
  cases hready

theorem sum_set_of_getElem? {k : Nat} : ∀ {ns : List Nat} {p : Nat}, ns[p]? = some (k + 1) →
    (ns.set p k).sum + 1 = ns.sum
  | [], _, h => by cases h
  | n :: ns, 0, h => by
    obtain rfl : n = k + 1 := Option.some.inj h
    simp only [List.set_cons_zero, List.sum_cons]
    omega
  | n :: ns, p + 1, h => by
    have ih := sum_set_of_getElem? (show ns[p]? = some (k + 1) from h)
    simp only [List.set_cons_succ, List.sum_cons]
    omega

/-- Taking an event leaves one fewer due. -/
theorem Due.takes {m m' : Merge L u} {ns : List Nat} (h : m.Due ns) {p : InletId} {q : Inlet u} {a : Arrival α}
    (hq : m.inlets[p]? = some q) (ha : q.buffer = some a) (hi : m'.inlets = m.inlets.set p q.take.2) :
    ∃ ns', m'.Due ns' ∧ ns'.sum + 1 = ns.sum := by
  obtain ⟨n, hn, hd⟩ := h p q hq
  obtain ⟨k, rfl, hd'⟩ := hd.take ha
  have hlt : p < ns.length := (List.getElem?_eq_some_iff.1 hn).1
  exact ⟨ns.set p k, h.set hq hi (List.getElem?_set_self hlt) hd' fun j hj => List.getElem?_set_ne hj,
    sum_set_of_getElem? hn⟩

/-! ## Steps -/

/-- How many steps there are at most to the next event of a run, without those that take signals. -/
def rank (m : Merge L u) : Nat :=
  match m.stage with
  | .unpolled => 7
  | .settling _ => if m.unsent.isSome then 6 else 4
  | .draining (.deliver _) => 5
  | .draining .read => 3
  | .awaiting _ => 2
  | .attempting .. => 1
  | .ended _ | .abandoned => 0

/-- A bound on the steps to the end of a run from which `ns` events are due. -/
def toil (m : Merge L u) (ns : List Nat) : Nat := 8 * ns.sum + m.rank + m.link.signals.length

/-- The run does not go on by itself: it has ended, or it waits for credit to read on. -/
inductive Rests (m : Merge L u) : Prop
  | ended : m.stage.isFinal = true → Rests m
  | starved : m.awake = false → m.stage = .awaiting .read → m.credit.isPositive = false → m.link.signals = [] → Rests m

/-- What a step does to a merge with `ns` events due: the run rests, or comes nearer to its end. -/
structure Proceeds (m : Merge L u) (ns : List Nat) (m' : Merge L u) (ns' : List Nat) : Prop where
  due : m'.Due ns'
  toil : m'.toil ns' ≤ m.toil ns
  rests : m'.Rests ∨ m'.awake = true ∧ m'.stage.isFinal = false ∧ m'.toil ns' < m.toil ns

theorem rank_of_isFinal {m : Merge L u} (h : m.stage.isFinal = true) : m.rank = 0 := by
  unfold rank
  cases hst : m.stage <;> first | rfl | (rw [hst] at h; cases h)

theorem rank_pos {m : Merge L u} (h : m.stage.isFinal = false) : 0 < m.rank := by
  unfold rank
  cases hst : m.stage with
  | settling closing => dsimp only; split <;> omega
  | draining aim => cases aim <;> simp
  | ended v => rw [hst] at h; cases h
  | abandoned => rw [hst] at h; cases h
  | _ => simp

theorem rank_of_settling {m : Merge L u} {closing : Bool} (h : m.stage = .settling closing) (hu : m.unsent = none) :
    m.rank = 4 := by
  simp [rank, h, hu]

theorem Turns.rank {m : Merge L u} {stage : Stage} (h : Turns m stage) (hc : m.Coherent) :
    ({ m with stage } : Merge L u).rank < m.rank := by
  unfold Merge.rank
  cases h with
  | deliver closing hst hu => simp [hst, hu]
  | read hst hu => simp [hst, hu]
  | await aim hst => cases aim <;> simp [hst]
  | choose order haim => rcases haim.stage with hst | hst <;> simp [hst]
  | settle closing haim hu =>
    rcases haim.stage with hst | hst
    · simp [hst, hu]
    · exact absurd hst hc.not_awaiting_deliver

/-- The end of a run is a rest. -/
theorem proceeds_finish {m m₁ : Merge L u} {ns : List Nat} (hd : m.Due ns) (hi : m₁.inlets = m.inlets) (v : Verdict) :
    Proceeds m ns (m₁.finish v) ns := by
  have hf := finish_spec m₁ v
  have hfinal : (m₁.finish v).stage.isFinal = true := by rw [hf.stage]; rfl
  refine ⟨hd.released fun k => Or.inr (by rw [hf.inlet, hi]), ?_, Or.inl (.ended hfinal)⟩
  unfold Merge.toil
  rw [rank_of_isFinal hfinal, hf.signals]
  exact Nat.le_trans (Nat.le_add_right _ _) (Nat.le_add_right _ _)

theorem rank_le (m : Merge L u) : m.rank ≤ 7 := by
  unfold rank
  split <;> first | (split <;> omega) | omega

/-- An attempt handles one of the events that are due. -/
theorem Tries.proceeds {m m' : Merge L u} (h : Tries m m') (hb : m.Balanced) (hc : m.Coherent) (ha : m.awake = true)
    {ns : List Nat} (hd : m.Due ns) : ∃ ns', Proceeds m ns m' ns' := by
  have hfit := hc.fits
  cases h with
  | waits choice order hst hnone =>
    rw [hst] at hfit
    obtain ⟨-, -, -, horder, hne⟩ := hfit
    exact absurd hnone (hd.found (fun r hr => live_of_mem hb choice (horder ▸ hr)) hne)
  | accepts choice order p a q hst hp hq hbuf =>
    have hr := hd.reads_seek order
    have hframe := (frame_seek m order).trans (frame_putInlet (m.seek order).2 p q.take.2)
    obtain ⟨ns', hd', hsum⟩ := hr.due.takes hq hbuf (inlets_putInlet (m.seek order).2 p q.take.2)
    have hsig : ((m.seek order).2.putInlet p q.take.2).link.signals = m.link.signals := by
      rw [link_putInlet, hr.signals]
    have hrank : m.rank = 1 := by simp [rank, hst]
    have hlt : ∀ m' : Merge L u, m'.link.signals.length ≤ m.link.signals.length → m'.toil ns' < m.toil ns := by
      intro m' hle
      have := rank_le m'
      unfold toil
      omega
    have hdue := hd'.released (inlet_dispatch ((m.seek order).2.putInlet p q.take.2) choice p a)
    cases closes_dispatch ((m.seek order).2.putInlet p q.take.2) choice p a with
    | ended hfinal hnil =>
      exact ⟨ns', hdue, Nat.le_of_lt (hlt _ (by rw [hnil]; exact Nat.zero_le _)), Or.inl (.ended hfinal)⟩
    | goesOn hrun hawake hlink =>
      have hless := hlt _ (Nat.le_of_eq (congrArg List.length ((congrArg Link.signals hlink).trans hsig)))
      exact ⟨ns', hdue, Nat.le_of_lt hless, Or.inr ⟨hawake.trans (hframe.awake.trans ha), hrun, hless⟩⟩

/-- **Each step of a merge of prompt sources brings the run nearer to its end, or the run rests.** -/
theorem Step.proceeds {m m' : Merge L u} (h : Step m m') (hb : m.Balanced) (hc : m.Coherent) (ha : m.awake = true)
    (hr : m.stage.isFinal = false) {ns : List Nat} (hd : m.Due ns) : ∃ ns', Proceeds m ns m' ns' := by
  have hgoes : ∀ m' : Merge L u, m'.inlets = m.inlets → m'.awake = true → m'.stage.isFinal = false →
      m'.rank + m'.link.signals.length < m.rank + m.link.signals.length → ∃ ns', Proceeds m ns m' ns' := by
    intro m' hi ha' hr' hlt
    have hlt : m'.toil ns < m.toil ns := by unfold toil; omega
    exact ⟨ns, hd.congr hi, Nat.le_of_lt hlt, Or.inr ⟨ha', hr', hlt⟩⟩
  have hfit := hc.fits
  cases h with
  | opens hst =>
    rw [hst] at hfit
    refine hgoes _ rfl ha rfl (Nat.add_lt_add_right ?_ _)
    simp [rank, hst, show m.unsent = none from hfit, log, note]
  | turns stage ht => exact hgoes _ rfl ha ht.isFinal_next (Nat.add_lt_add_right (ht.rank hc) _)
  | starves aim hst hpos hs =>
    refine ⟨ns, hd.congr rfl, Nat.le_refl _, Or.inl (.starved rfl ?_ hpos hs)⟩
    cases aim with
    | read => exact hst
    | deliver closing => exact absurd hst hc.not_awaiting_deliver
  | hears n rest _ hs =>
    refine hgoes _ rfl ha hr (Nat.add_lt_add_left ?_ m.rank)
    show rest.length < m.link.signals.length
    rw [hs]
    exact Nat.lt_succ_self _
  | delivers closing y haim _ _ hrec =>
    have hrank : m.rank = 5 := by
      rcases haim.stage with hst | hst
      · simp [rank, hst]
      · exact absurd hst hc.not_awaiting_deliver
    have hd' := delivered_spec closing y hrec
    refine hgoes _ hd'.inlets (hd'.awake.trans ha) rfl ?_
    rw [rank_of_settling rfl hd'.unsent, hd'.link, hrank]
    exact Nat.add_lt_add_right (by decide : 4 < 5) _
  | tries m' _ _ ht => exact ht.proceeds hb hc ha hd
  | ends m₁ v he => exact ⟨ns, proceeds_finish hd he.inlets v⟩
  | rests hf =>
    rw [hr] at hf
    cases hf

/-! ## Polls -/

theorem Wanted.congr {m m' : Merge L u} (hw : m.Wanted) (h : m'.link = m.link) : m'.Wanted :=
  ⟨by rw [h]; exact hw.receiving, by rw [h]; exact hw.senders, by rw [h]; exact hw.signals⟩

theorem Wanted.closes {m m' : Merge L u} (hw : m.Wanted) (h : Closes m m') : m'.Wanted := by
  cases h with
  | ended _ hnil hsenders hreceiving =>
    exact ⟨hreceiving.trans hw.receiving, by rw [hsenders]; exact hw.senders, by rw [hnil]; exact List.not_mem_nil⟩
  | goesOn _ _ hl => exact hw.congr hl

/-- No step of a merge of prompt sources withdraws it. -/
theorem Step.wanted {m m' : Merge L u} (h : Step m m') (hw : m.Wanted) {ns : List Nat} (hd : m.Due ns) : m'.Wanted := by
  have hseek : ∀ order, (m.seek order).2.Wanted := by
    intro order
    have hf := frame_seek m order
    exact ⟨hf.receiving.trans hw.receiving, by rw [hf.senders]; exact hw.senders,
      by rw [(hd.reads_seek order).signals]; exact hw.signals⟩
  cases h with
  | opens => exact hw.congr rfl
  | turns => exact hw.congr rfl
  | starves => exact hw.congr rfl
  | hears n rest _ hs =>
    refine ⟨hw.receiving, hw.senders, fun hmem => hw.signals ?_⟩
    rw [hs]
    exact List.mem_cons_of_mem _ hmem
  | delivers closing y _ _ _ hr =>
    have hl := (delivered_spec closing y hr).link
    exact ⟨by rw [hl]; exact hw.receiving, by rw [hl]; exact hw.senders, by rw [hl]; exact hw.signals⟩
  | tries m' _ _ ht =>
    cases ht with
    | waits choice order => exact (hseek order).congr rfl
    | accepts choice order p a q =>
      exact ((hseek order).congr (link_putInlet _ p q.take.2)).closes (closes_dispatch _ choice p a)
  | ends m₁ v he =>
    cases he with
    | withdrawn rest _ hs => exact absurd (hs ▸ List.mem_cons_self) hw.signals
    | _ => exact hw.closes (closes_finish (by rfl) _)
  | rests => exact hw

theorem Rests.advance {m : Merge L u} (h : m.Rests) (fuel : Nat) : m.advance fuel = m := by
  cases h with
  | ended hf => exact advance_of_isFinal hf fuel
  | starved ha => exact advance_of_asleep ha fuel

/-- **A merge of prompt sources that is wanted goes on until it rests.** -/
theorem advance_rests : ∀ (fuel : Nat) {m : Merge L u} {ns : List Nat}, m.awake = true → m.stage.isFinal = false →
    m.Wanted → m.Balanced → m.Coherent → m.Due ns → m.toil ns ≤ fuel → (m.advance fuel).Rests
  | 0, m, ns, _, hr, _, _, _, _, hle => by
    have := rank_pos hr
    unfold toil at hle
    omega
  | fuel + 1, m, ns, ha, hr, hw, hb, hc, hd, hle => by
    have hstep := step_spec m
    obtain ⟨ns', hp⟩ := hstep.proceeds hb hc ha hr hd
    rw [advance_succ ha]
    rcases hp.rests with hrest | ⟨ha', hr', hlt⟩
    · rw [hrest.advance]
      exact hrest
    · exact advance_rests fuel ha' hr' (hstep.wanted hw hd) (hb.acts hstep.acts) (hstep.coherent hc ha) hp.due
        (by omega)

end Merge
end StreamMerge
