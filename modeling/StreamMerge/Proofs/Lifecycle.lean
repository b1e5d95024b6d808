import Mathlib.Data.List.Nodup
import StreamMerge.Proofs.Answers
import StreamMerge.Proofs.Withdrawal

/-!
# The life of a source

A source is polled for a while, brings its end or a failure at most once, and is given up exactly once
(`Session.play_orderly`). `Lives` says how far it has come, from what was dealt with it and from its inlet; every
operation on an inlet takes it one stage on at most.
-/
namespace StreamMerge

variable {α β : Type} {L : Strategy α β} {u : Source α}

namespace Entry

/-- The source of `p` is polled or given up. -/
def deals (p : InletId) : Entry L → Bool
  | .polled q _ | .dropped q => q = p
  | _ => false

/-- No source is polled or given up. -/
def isUndealt : Entry L → Prop
  | .polled .. | .dropped _ => False
  | _ => True

theorem deals_of_isUndealt {e : Entry L} (h : e.isUndealt) (p : InletId) : e.deals p = false := by
  cases e <;> first | rfl | cases h

theorem isUndealt_of_isNotice {e : Entry L} (h : e.isNotice) : e.isUndealt := by
  cases e <;> first | exact trivial | cases h

end Entry

/-! ## The life of one source -/

/-- Polls of the source of `p` that were answered by an element, or by nothing yet. -/
def EarlyPolls (p : InletId) (es : List (Entry L)) : Prop := ∀ e ∈ es, ∃ r, e = .polled p r ∧ r.isLast = false

/-- How far the source of the inlet `q` with the number `p` has come, if `es` was dealt with it. -/
inductive Lives (p : InletId) (es : List (Entry L)) (q : Inlet u) : Prop
  | running : EarlyPolls p es → q.source.isSome = true → q.hasTerminal = false → Lives p es q
  /-- Its end or failure is there. -/
  | concluded (early : List (Entry L)) (r : Reply α) : es = early ++ [.polled p r] → EarlyPolls p early →
      r.isLast = true → q.source.isSome = true → q.hasTerminal = true → Lives p es q
  /-- It was given up, after its end or failure or before. -/
  | gone (early last : List (Entry L)) : es = early ++ last ++ [.dropped p] → EarlyPolls p early →
      last = [] ∨ (∃ r, last = [.polled p r] ∧ r.isLast = true) → q.source = none → q.buffer = none → Lives p es q

namespace Lives

variable {p : InletId} {es : List (Entry L)} {q : Inlet u}

theorem new (s : u.State) : Lives (L := L) p [] (Inlet.new s) :=
  .running (fun e he => by cases he) rfl rfl

theorem fill (h : Lives p es q) (hb : q.buffer = none) {s : u.State} (hs : q.source = some s) :
    Lives p (es ++ [.polled p (u.poll s).reply]) (q.store (u.poll s)) := by
  have hterm : (q.store (u.poll s)).hasTerminal = (u.poll s).reply.isLast := by
    rw [Reply.isLast_eq]
    exact Account.hasTerminal_store hb _
  cases h with
  | running hes =>
    cases hl : (u.poll s).reply.isLast with
    | true => exact .concluded es _ rfl hes hl (by simp) (hterm.trans hl)
    | false =>
      refine .running (fun e he => ?_) (by simp) (hterm.trans hl)
      rcases List.mem_append.1 he with he | he
      · exact hes e he
      · exact ⟨_, List.mem_singleton.1 he, hl⟩
  | concluded early r _ _ _ _ ht =>
    unfold Inlet.hasTerminal at ht
    rw [hb] at ht
    cases ht
  | gone early last _ _ _ hnone =>
    rw [hs] at hnone
    cases hnone

theorem take (h : Lives p es q) {a : Arrival α} (ha : q.buffer = some a) :
    Lives p (es ++ if q.source.isSome && q.take.2.source.isNone then [.dropped p] else []) q.take.2 := by
  cases h with
  | running hes hs ht =>
    have ht : a.isTerminal = false := by
      unfold Inlet.hasTerminal at ht
      rw [ha] at ht
      exact ht
    obtain ⟨x, rfl⟩ := Arrival.isTerminal_eq_false.1 ht
    rw [Inlet.take_element ha]
    have hn : q.source.isNone = false := by simpa using hs
    refine .running ?_ hs rfl
    rw [hs, hn]
    simpa using hes
  | concluded early r heq hes hr hs ht =>
    obtain ⟨a', ha', hterm⟩ := Inlet.hasTerminal_iff.1 ht
    obtain rfl := Option.some.inj (ha.symm.trans ha')
    have hnone := Inlet.source_take_terminal ha hterm
    refine .gone early [.polled p r] ?_ hes (Or.inr ⟨r, rfl, hr⟩) hnone (Inlet.buffer_take ha)
    rw [hs, hnone, heq]
    rfl
  | gone early last _ _ _ _ hb =>
    rw [ha] at hb
    cases hb

theorem release (h : Lives p es q) :
    Lives p (es ++ if q.source.isSome && q.release.2.source.isNone then [.dropped p] else []) q.release.2 := by
  cases h with
  | running hes hs _ =>
    refine .gone es [] ?_ hes (Or.inl rfl) rfl rfl
    rw [hs, List.append_nil]
    rfl
  | concluded early r heq hes hr hs _ =>
    refine .gone early [.polled p r] ?_ hes (Or.inr ⟨r, rfl, hr⟩) rfl rfl
    rw [hs, heq]
    rfl
  | gone early last heq hes hlast hs hb =>
    refine .gone early last ?_ hes hlast rfl rfl
    rw [hs, heq]
    exact List.append_nil _

theorem adjust (h : Lives p es q) {s : u.State} (hs : q.source = some s) (s' : u.State) :
    Lives p es { q with source := some s' } := by
  cases h with
  | running hes _ ht => exact .running hes rfl ht
  | concluded early r heq hes hr _ ht => exact .concluded early r heq hes hr rfl ht
  | gone early last _ _ _ hnone =>
    rw [hs] at hnone
    cases hnone

end Lives

/-! ## The lives of all sources -/

namespace Merge

/-- What was dealt with the source of `p`: the polls of it, and its being given up. -/
def dealings (m : Merge L u) (p : InletId) : List (Entry L) := m.history.filter (Entry.deals p)

/-- Every source leads the life that `Lives` describes. -/
def Living (m : Merge L u) : Prop :=
  ∀ (p : InletId) (q : Inlet u), m.inlets[p]? = some q → Lives p (m.dealings p) q

theorem dealings_of_history {m m' : Merge L u} {es : List (Entry L)} (h : m'.history = m.history ++ es)
    (p : InletId) : m'.dealings p = m.dealings p ++ es.filter (Entry.deals p) := by
  rw [dealings, h, List.filter_append]
  rfl

theorem dealings_of_extends {m m' : Merge L u} (h : Extends Entry.isUndealt m m') (p : InletId) :
    m'.dealings p = m.dealings p := by
  obtain ⟨es, hes, hok⟩ := h
  have hnone : es.filter (Entry.deals p) = [] :=
    List.filter_eq_nil_iff.2 fun e he => by rw [Entry.deals_of_isUndealt (hok e he)]; exact Bool.false_ne_true
  rw [dealings_of_history hes, hnone, List.append_nil]

section
variable {m m' : Merge L u}

theorem Living.of_eq (h : m.Living) (hi : m'.inlets = m.inlets) (hx : Extends Entry.isUndealt m m') : m'.Living := by
  intro p q hq
  rw [hi] at hq
  rw [dealings_of_extends hx]
  exact h p q hq

/-- The inlet `p` changes alone. -/
theorem Living.set (h : m.Living) {p : InletId} {q' : Inlet u} (hi : m'.inlets = m.inlets.set p q')
    (hx : ∀ k, k ≠ p → m'.dealings k = m.dealings k) (hp : Lives p (m'.dealings p) q') : m'.Living := by
  intro k q hq
  rw [hi, List.getElem?_set] at hq
  by_cases hk : p = k
  · subst hk
    rw [if_pos rfl] at hq
    split at hq
    · exact Option.some.inj hq ▸ hp
    · cases hq
  · rw [if_neg hk] at hq
    rw [hx k (Ne.symm hk)]
    exact h k q hq

theorem Living.fill (h : m.Living) (p : InletId) : (m.fill p).Living := by
  rcases fill_cases m p with hf | ⟨q, s, hf⟩
  · rw [hf]
    exact h
  · have hd : ∀ k, (m.fill p).dealings k =
        m.dealings k ++ if p = k then [.polled p (u.poll s).reply] else [] := by
      intro k
      have hcalls : (List.replicate (u.poll s).cancels (.called p) : List (Entry L)).filter (Entry.deals k) = [] :=
        List.filter_eq_nil_iff.2 fun e he => by rw [List.eq_of_mem_replicate he]; exact Bool.false_ne_true
      rw [dealings_of_history hf.history, List.filter_append, hcalls, List.nil_append]
      by_cases hk : p = k
      · simp [Entry.deals, hk]
      · simp [Entry.deals, hk]
    refine h.set hf.inlets (fun k hk => ?_) ?_
    · rw [hd, if_neg (Ne.symm hk), List.append_nil]
    · rw [hd, if_pos rfl]
      exact (h p q hf.here).fill hf.empty hf.source

theorem Living.seek (h : m.Living) (order : List InletId) : (m.seek order).2.Living :=
  seek_induction (motive := Living) (fun _ p h => h.fill p) m order h

/-- Another inlet is put in the place of `q`, and noted if that gives the source up. -/
theorem Living.putInlet (h : m.Living) {p : InletId} {q q' : Inlet u} (hq : m.inlets[p]? = some q)
    (hl : Lives p (m.dealings p ++ if q.source.isSome && q'.source.isNone then [.dropped p] else []) q') :
    (m.putInlet p q').Living := by
  have hd : ∀ k, (m.putInlet p q').dealings k = m.dealings k ++
      if p = k then (if q.source.isSome && q'.source.isNone then [.dropped p] else []) else [] := by
    intro k
    rw [dealings_of_history (history_putInlet_of_some hq)]
    by_cases hk : p = k
    · split <;> simp [Entry.deals, hk]
    · split <;> simp [Entry.deals, hk]
  refine h.set (inlets_putInlet m p q') (fun k hk => ?_) ?_
  · rw [hd, if_neg (Ne.symm hk), List.append_nil]
  · rw [hd, if_pos rfl]
    exact hl

theorem Living.release (h : m.Living) (p : InletId) : (m.release p).Living := by
  unfold Merge.release
  split
  · exact h
  · rename_i q hq
    exact h.putInlet hq (h p q hq).release

theorem Living.releaseAll (h : m.Living) : m.releaseAll.Living :=
  foldl_release_induction (motive := Living) (fun _ p h => h.release p) _ m h

theorem Living.releaseNamed : ∀ (ps : List InletId) {m : Merge L u}, m.Living →
    (ps.foldl Merge.releaseNamed m).Living
  | [], _, h => h
  | p :: ps, m, h => by
    refine Living.releaseNamed ps ?_
    unfold Merge.releaseNamed
    split
    · exact h.release p
    · exact h.of_eq rfl (extends_note m (e := .logged _) trivial)

theorem Living.finish (h : m.Living) (v : Verdict) : (m.finish v).Living := by
  rw [finish_eq]
  refine h.releaseAll.of_eq (inlets_announce m.releaseAll _ v) ?_
  exact (extends_announce_notice m.releaseAll _ v).mono fun _ => Entry.isUndealt_of_isNotice

theorem Living.settled (h : m.Living) (fx : Effects β L.Key) (next : L.State) : (m.settled fx next).Living := by
  have hgo : (m.goOn fx.policy next).Living := by
    unfold goOn follow
    split
    · exact h.of_eq rfl (.of_eq rfl)
    · rename_i policy _
      exact h.of_eq rfl (extends_note { m with policy } (e := .logged _) trivial)
  unfold Merge.settled emit
  have hrel := Living.releaseNamed fx.releases hgo
  split
  · exact hrel
  · rename_i y _
    exact hrel.of_eq rfl (extends_note (e := .emitted y) _ trivial)

theorem Living.dispatch (h : m.Living) (choice : Choice) (p : InletId) (a : Arrival α) :
    (m.dispatch choice p a).Living := by
  have ha := accept_spec m choice p a
  obtain ⟨rs, hrs, hlog⟩ := ha.history
  have hacc : (m.accept choice p a).Living := by
    refine h.of_eq ha.inlets ⟨_, hrs, fun e he => ?_⟩
    rcases List.mem_cons.1 he with rfl | he
    · trivial
    · rcases List.mem_append.1 he with he | he
      · have := isCall_handling he
        cases e <;> first | exact trivial | cases this
      · obtain ⟨r, rfl⟩ := hlog e he
        trivial
  rw [dispatch_eq, apply_eq]
  split
  · have hlog : ((m.accept choice p a).log (.violated .emittedTwice p
        (L.showState (m.accept choice p a).state))).Living :=
      hacc.of_eq rfl (extends_note _ (e := .logged _) trivial)
    exact hlog.finish _
  · have hs := hacc.settled (.ofActions (m.transition p a).actions) (m.transition p a).next
    unfold close
    split
    · exact hs.of_eq rfl (.of_eq rfl)
    · exact hs.of_eq rfl (.of_eq rfl)
    · exact hs.finish _

theorem Step.living (h : Step m m') (hm : m.Living) : m'.Living := by
  cases h with
  | opens => exact hm.of_eq rfl (extends_opening Entry.isUndealt m trivial trivial)
  | turns => exact hm.of_eq rfl (.of_eq rfl)
  | starves => exact hm.of_eq rfl (.of_eq rfl)
  | hears n => exact hm.of_eq rfl (extends_note _ (e := .took (.request n)) trivial)
  | delivers closing y _ _ _ hr =>
    have hd := delivered_spec closing y hr
    exact hm.of_eq hd.inlets (hd.extends_of _ trivial)
  | tries m' _ _ ht =>
    cases ht with
    | waits choice order => exact (hm.seek order).of_eq rfl (.of_eq rfl)
    | accepts choice order p a q _ _ hq ha =>
      have hs := hm.seek order
      exact (hs.putInlet hq ((hs p q hq).take ha)).dispatch choice p a
  | ends m₁ v h =>
    have hm₁ : m₁.Living := hm.of_eq h.inlets (h.notices.mono fun _ => Entry.isUndealt_of_isNotice)
    exact hm₁.finish v
  | rests => exact hm

theorem Change.living (h : Change m m') (hm : m.Living) : m'.Living := by
  cases h with
  | step => exact (step_spec m).living hm
  | rouse => exact hm
  | relink => exact hm
  | adjust p q s s' hq hs => exact hm.set rfl (fun _ _ => rfl) ((hm p q hq).adjust hs s')
  | abandon => exact hm.releaseAll

/-! ## The end of a source is taken up at once -/

/-- Right after a source has brought its end or a failure it is given up and the event is taken up. -/
def Announced (m : Merge L u) : Prop := ∀ pre p r post, m.history = pre ++ .polled p r :: post → r.isLast = true →
  ∃ choice a rest, Arrival.ofReply? r = some a ∧ post = .dropped p :: .arrived choice p a :: rest

theorem Announced.of_extends (h : m.Announced) (hx : Extends Entry.isEarly m m') : m'.Announced := by
  obtain ⟨es, hes, hok⟩ := hx
  intro pre p r post hsplit hr
  rw [hes] at hsplit
  rcases split_append hsplit with ⟨zs, hpre, rfl⟩ | ⟨zs, -, hys⟩
  · obtain ⟨choice, a, rest, ha, rfl⟩ := h pre p r zs hpre hr
    exact ⟨choice, a, rest ++ es, ha, rfl⟩
  · have hearly : (.polled p r : Entry L).isEarly := hok _ (by rw [hys]; simp)
    rw [show r.isLast = false from hearly] at hr
    cases hr

theorem Announced.answered (h : m.Announced) {p : InletId} {a : Arrival α} (ha : Answered m p a m') :
    m'.Announced := by
  cases ha with
  | element _ hx => exact h.of_extends hx
  | last r choice reads after ha ht hh hearly hafter =>
    intro pre p' r' post hsplit hr
    rw [hh, List.append_assoc] at hsplit
    rcases split_append hsplit with ⟨zs, hpre, rfl⟩ | ⟨zs, rfl, hys⟩
    · obtain ⟨choice', a', rest, ha', rfl⟩ := h pre p' r' zs hpre hr
      exact ⟨choice', a', _, ha', rfl⟩
    · -- The new answer is the only one of its kind, so it is the one of the split.
      have hlast : ¬ (.polled p' r' : Entry L).isEarly := fun he => by
        rw [show r'.isLast = false from he] at hr
        cases hr
      have hrest : ∀ e ∈ (.dropped p :: .arrived choice p a :: after : List (Entry L)), ¬ ¬ e.isEarly := by
        intro e he
        rcases List.mem_cons.1 he with rfl | he
        · exact not_not_intro trivial
        · rcases List.mem_cons.1 he with rfl | he
          · exact not_not_intro trivial
          · exact not_not_intro (Entry.isEarly_of_not_isPoll (hafter e he))
      obtain ⟨-, heq, rfl⟩ := split_unique (P := fun e : Entry L => ¬ e.isEarly) hys.symm hlast
        (fun e he => not_not_intro (hearly e he)) hrest
      cases heq
      exact ⟨choice, a, after, ha, rfl⟩

theorem Change.announced (h : Change m m') (hm : m.Announced) (ht : m.Tidy) (hb : m.Balanced) : m'.Announced := by
  rcases h.early_or_accepts ht with hx | ⟨p, a, ha⟩
  · exact hm.of_extends hx
  · exact hm.answered (ht.accepts hb ha).2

/-! ## After the run -/

/-- A run that is over has no source left. -/
def Spent (m : Merge L u) : Prop := m.stage.isFinal = true → ∀ p, m.inletIs p (·.source.isSome) = false

theorem spent_dispatch (m : Merge L u) (choice : Choice) (p : InletId) (a : Arrival α) :
    (m.dispatch choice p a).Spent := by
  obtain ⟨m₁, closing, heq, -⟩ := dispatch_close m choice p a
  rw [heq]
  unfold close
  split
  · exact fun hf => by cases hf
  · exact fun hf => by cases hf
  · exact fun _ => (stops_finish m₁ _).released

theorem Step.spent (h : Step m m') (hm : m.Spent) : m'.Spent := by
  cases h with
  | opens => exact fun hf => by cases hf
  | turns stage ht =>
    intro hf
    rw [ht.isFinal_next] at hf
    cases hf
  | starves => exact hm
  | hears => exact hm
  | delivers => exact fun hf => by cases hf
  | tries m' _ _ ht =>
    cases ht with
    | waits choice order hst =>
      intro hf
      have hf : (m.seek order).2.stage.isFinal = true := hf
      rw [(frame_seek m order).stage, hst] at hf
      cases hf
    | accepts choice order p a q => exact spent_dispatch _ choice p a
  | ends m₁ v => exact fun _ => (stops_finish m₁ v).released
  | rests => exact hm

theorem Change.spent (h : Change m m') (hm : m.Spent) : m'.Spent := by
  cases h with
  | step => exact (step_spec m).spent hm
  | rouse => exact hm
  | relink => exact hm
  | adjust p q s s' hq hs =>
    intro hf
    have hp := hm hf p
    rw [inletIs_iff_of_some hq, hs] at hp
    cases hp
  | abandon =>
    intro _ p
    refine eq_false_of_ne_true fun hs => ?_
    obtain ⟨q', hq', hs⟩ := inletIs_iff.1 hs
    have hq' : m.releaseAll.inlets[p]? = some q' := hq'
    rw [getElem?_releaseAll] at hq'
    obtain ⟨q, -, rfl⟩ := Option.map_eq_some_iff.1 hq'
    cases hs

end

/-! ## All of it -/

/-- All sources are looked after. -/
structure Tended (m : Merge L u) : Prop where
  living : m.Living
  tidy : m.Tidy
  announced : m.Announced
  spent : m.Spent

theorem Change.tended {m m' : Merge L u} (h : Change m m') (hm : m.Tended) (hb : m.Balanced) : m'.Tended :=
  ⟨h.living hm.living, h.tidy hm.tidy hb, h.announced hm.announced hm.tidy hb, h.spent hm.spent⟩

theorem Fresh.tended {m : Merge L u} {sources : List u.State} (h : Fresh m sources) : m.Tended := by
  refine ⟨fun p q hq => ?_, h.tidy, fun pre p r post hsplit => ?_, fun hf => ?_⟩
  · rw [h.inlets, List.getElem?_map] at hq
    obtain ⟨s, -, rfl⟩ := Option.map_eq_some_iff.1 hq
    rw [dealings, h.history]
    exact .new s
  · rw [h.history] at hsplit
    exact absurd (congrArg List.length hsplit) (by simp)
  · rw [h.stage] at hf
    cases hf

theorem play_tended {settings : Settings} {sources : List u.State} {m : Merge L u}
    (hm : setUp L u settings sources = .ok m) (moves : List (Move u)) :
    ((Session.start m).play moves).merge.Tended :=
  play_invariant hm (setUp_fresh hm).tended (fun h hb _ ht => h.tended ht hb) moves

end Merge

/-- How a session deals with its `count` sources. -/
structure Session.Orderly (s : Session L u) (count : Nat) : Prop where
  /-- A source is polled for a while, brings its end or a failure at most once, and is given up once. -/
  course : ∀ p, p < count → ∃ early last, EarlyPolls p early ∧
    (last = [] ∨ ∃ r, last = [.polled p r] ∧ r.isLast = true) ∧
    s.merge.dealings p = early ++ last ++ if s.merge.inletIs p (·.source.isSome) then [] else [.dropped p]
  /-- Right after it has brought its end or a failure it is given up, and then the event is taken up. -/
  announced : ∀ pre p r post, s.merge.history = pre ++ .polled p r :: post → r.isLast = true →
    ∃ choice a rest, Arrival.ofReply? r = some a ∧ post = .dropped p :: .arrived choice p a :: rest
  /-- When the run has ended or was given up, every source was given up, once and last of all. -/
  spent : s.merge.stage.isFinal = true → ∀ p, p < count →
    ∃ before, s.merge.dealings p = before ++ [.dropped p] ∧ .dropped p ∉ before

/-- Every source of a merge that could not be set up was given up once, and never polled. -/
theorem Merge.dropped_of_setUp {settings : Settings} {sources : List u.State} {e : MergeError}
    {journal : Array (Entry L)} (h : setUp L u settings sources = .error (e, journal)) {p : InletId}
    (hp : p < sources.length) : journal.toList.filter (Entry.deals p) = [.dropped p] := by
  unfold setUp at h
  split at h
  · obtain ⟨-, rfl⟩ := Prod.mk.inj (Except.error.inj h)
    have hone : (List.range sources.length).filter (· = p) = [p] := by
      rw [List.filter_eq, List.count_eq_one_of_mem List.nodup_range (List.mem_range.2 hp)]
      rfl
    rw [List.filter_map]
    show List.map Entry.dropped ((List.range sources.length).filter fun q => q = p) = _
    rw [hone]
    rfl
  · cases h

/-- **Every source is given up exactly once.** For every strategy, all sources and every order of moves, and also when
the merge cannot be set up. -/
theorem Session.play_orderly (L : Strategy α β) (u : Source α) (settings : Settings) (sources : List u.State) :
    match Merge.setUp L u settings sources with
    | .error (_, journal) => ∀ p, p < sources.length → journal.toList.filter (Entry.deals p) = [.dropped p]
    | .ok m => ∀ moves : List (Move u), ((start m).play moves).Orderly sources.length := by
  split
  · rename_i e journal h
    exact fun p hp => Merge.dropped_of_setUp h hp
  · rename_i m hm
    intro moves
    have ht := Merge.play_tended hm moves
    have hlen := Merge.play_count hm moves
    generalize (start m).play moves = s at ht hlen
    -- Between two steps a source has either concluded nothing, or was given up.
    have hlives : ∀ p, p < sources.length → ∃ early last, EarlyPolls p early ∧
        (last = [] ∨ ∃ r, last = [.polled p r] ∧ r.isLast = true) ∧
        s.merge.dealings p = early ++ last ++ if s.merge.inletIs p (·.source.isSome) then [] else [.dropped p] := by
      intro p hp
      have hlt : p < s.merge.inlets.length := hlen ▸ hp
      have hq := List.getElem?_eq_getElem hlt
      generalize s.merge.inlets[p] = q at hq
      rw [Merge.inletIs_iff_of_some hq]
      cases ht.living p q hq with
      | running hes hs => exact ⟨_, [], hes, Or.inl rfl, by rw [hs]; simp⟩
      | concluded early r _ _ _ _ hterm =>
        rw [ht.tidy p q hq] at hterm
        cases hterm
      | gone early last heq hes hlast hs => exact ⟨early, last, hes, hlast, by rw [hs, heq]; rfl⟩
    refine ⟨hlives, ht.announced, fun hf p hp => ?_⟩
    obtain ⟨early, last, hes, hlast, heq⟩ := hlives p hp
    rw [ht.spent hf p] at heq
    refine ⟨early ++ last, heq, fun hmem => ?_⟩
    rcases List.mem_append.1 hmem with hmem | hmem
    · obtain ⟨r, hr, -⟩ := hes _ hmem
      cases hr
    · rcases hlast with rfl | ⟨r, rfl, -⟩
      · cases hmem
      · cases List.mem_singleton.1 hmem

/-- The failure of the third source ends the run: the first source has come to its end before, and the second one is
given up in the midst. -/
theorem Session.play_orderly_fair : ∃ m,
    Merge.setUp (Strategy.fair Nat) (scripted Nat) .standard
      [.ofList [1], .ofItems [.pend 9], .ofItems [.element 2, .failure ⟨"broken", []⟩]] = .ok m ∧
    ((start m).play [.request 9, .poll 40]).Orderly 3 ∧
    ((start m).play [.request 9, .poll 40]).merge.stage.isFinal = true ∧
    ((start m).play [.request 9, .poll 40]).merge.dealings 0 =
      [.polled 0 (.element 1), .polled 0 .ended, .dropped 0] ∧
    ((start m).play [.request 9, .poll 40]).merge.dealings 1 =
      [.polled 1 (.pending true), .polled 1 (.pending true), .dropped 1] ∧
    ((start m).play [.request 9, .poll 40]).merge.dealings 2 =
      [.polled 2 (.element 2), .polled 2 (.failed ⟨"broken", []⟩), .dropped 2] := by
  have hm : Merge.setUp (Strategy.fair Nat) (scripted Nat) .standard
      [.ofList [1], .ofItems [.pend 9], .ofItems [.element 2, .failure ⟨"broken", []⟩]] = .ok _ := rfl
  have h := play_orderly (Strategy.fair Nat) (scripted Nat) .standard
    [.ofList [1], .ofItems [.pend 9], .ofItems [.element 2, .failure ⟨"broken", []⟩]]
  rw [hm] at h
  exact ⟨_, hm, h [.request 9, .poll 40], rfl, rfl, rfl, rfl⟩

end StreamMerge
