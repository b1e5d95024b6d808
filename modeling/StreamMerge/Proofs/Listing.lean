import StreamMerge.Proofs.Promptness
import StreamMerge.Proofs.Supply

/-!
# Sources that are lists

Under an `Instant` forecast a source is as good as the list of the elements that it has ahead: it answers every poll
with the next of them or, after the last one, with its end. Such sources are prompt, one knows exactly how many events
are due from an inlet (`Inlet.Due.exact`), and every answer that a run writes down is a plain one (`Step.plain`).
-/
namespace StreamMerge

variable {α β : Type} {L : Strategy α β} {u : Source α}

/-! ## Instant forecasts -/

/-- The answer of a list to a poll. -/
def Reply.ofList : List α → Reply α
  | [] => .ended
  | x :: _ => .element x

/-- The sources for which there is a forecast are lists, and `answers?` tells how long they are. -/
structure Source.Forecast.Instant (w : u.Forecast) (answers? : u.State → Option Nat) : Prop where
  counts : ∀ {s xs}, w.ahead s xs → answers? s = some xs.length
  quiet : ∀ {s xs}, w.ahead s xs → (u.poll s).cancels = 0
  reply : ∀ {s xs}, w.ahead s xs → (u.poll s).reply = .ofList xs
  next : ∀ {s xs}, w.ahead s xs → w.ahead (u.poll s).next xs.tail

namespace Source.Forecast

variable {w : u.Forecast} {answers? : u.State → Option Nat}

theorem Instant.prompt (hw : w.Instant answers?) : ∀ {xs : List α} {s : u.State}, w.ahead s xs → u.Prompt s xs.length
  | [], s, h => .ended s _ (hw.reply h) (hw.quiet h)
  | x :: _, s, h => .element s _ x (hw.reply h) (hw.quiet h) (hw.prompt (hw.next h))

/-- A prompt source brings at least what is forecast for it. -/
theorem length_le_of_prompt (w : u.Forecast) {s : u.State} {n : Nat} (h : u.Prompt s n) :
    ∀ xs, w.ahead s xs → xs.length ≤ n := by
  induction h with
  | ended s n hr =>
    intro xs ha
    simp [w.ended hr ha]
  | failed s n c hr =>
    intro xs ha
    simp [w.failed hr ha]
  | element s n x hr _ _ ih =>
    intro xs ha
    obtain ⟨rest, rfl, ha'⟩ := w.element hr ha
    have := ih rest ha'
    simp
    omega

/-- Two lists side by side. -/
theorem Instant.sides {v : Source β} {z : v.Forecast} {answers?' : v.State → Option Nat} (hw : w.Instant answers?)
    (hz : z.Instant answers?') : (w.sides z).Instant (Sum.elim answers? answers?') := by
  constructor
  · rintro (s | t) xs ⟨ys, rfl, ha⟩
    · simp [hw.counts ha]
    · simp [hz.counts ha]
  · rintro (s | t) xs ⟨ys, rfl, ha⟩
    · exact hw.quiet ha
    · exact hz.quiet ha
  · rintro (s | t) xs ⟨ys, rfl, ha⟩
    · show (u.poll s).reply.map Side.left = _
      rw [hw.reply ha]
      cases ys <;> rfl
    · show (v.poll t).reply.map Side.right = _
      rw [hz.reply ha]
      cases ys <;> rfl
  · rintro (s | t) xs ⟨ys, rfl, ha⟩
    · exact ⟨ys.tail, List.map_tail.symm, hw.next ha⟩
    · exact ⟨ys.tail, List.map_tail.symm, hz.next ha⟩

end Source.Forecast

namespace Script

theorem remaining?_ofList (xs : List α) : (ofList xs).remaining? = some xs.length := by
  unfold remaining? ofList ofItems
  induction xs with
  | nil => rfl
  | cons x xs ih => simp only [List.map_cons, answers?, ih, Option.map_some, List.length_cons]

/-- The forecast for scripts that are lists: themselves. -/
def lists (α : Type) : (scripted α).Forecast where
  ahead s xs := s = ofList xs
  element := by
    rintro s x (_ | ⟨y, ys⟩) hr rfl
    · cases hr
    · cases hr
      exact ⟨ys, rfl, rfl⟩
  pending := by
    rintro s again (_ | ⟨y, ys⟩) hr rfl <;> cases hr
  ended := by
    rintro s (_ | ⟨y, ys⟩) hr rfl
    · rfl
    · cases hr
  failed := by
    rintro s c (_ | ⟨y, ys⟩) hr rfl <;> cases hr

theorem instant_lists : (lists α).Instant remaining? := by
  constructor
  · rintro s xs rfl
    exact remaining?_ofList xs
  · rintro s (_ | ⟨x, xs⟩) rfl <;> rfl
  · rintro s (_ | ⟨x, xs⟩) rfl <;> rfl
  · rintro s (_ | ⟨x, xs⟩) rfl <;> rfl

theorem ahead_lists (inputs : List (List α)) : List.Forall₂ (lists α).ahead (inputs.map ofList) inputs := by
  induction inputs with
  | nil => exact .nil
  | cons xs inputs ih => exact .cons rfl ih

end Script

/-! ## What is due from a list -/

namespace Inlet

/-- The source of the inlet, if it still has one, is a list. -/
def Listed (w : u.Forecast) (q : Inlet u) : Prop := ∀ s, q.source = some s → ∃ xs, w.ahead s xs

/-- How many answers the source has ahead, if there is one. -/
def ahead (answers? : u.State → Option Nat) (q : Inlet u) : Nat :=
  match q.source with
  | none => 0
  | some s => (answers? s).getD 0

/-- How many events come from the inlet of a list. -/
def due (answers? : u.State → Option Nat) (q : Inlet u) : Nat :=
  match q.buffer, q.source with
  | none, none => 0
  | none, some _ => q.ahead answers? + 1
  | some a, _ => if a.isTerminal then 1 else q.ahead answers? + 2

variable {w : u.Forecast} {answers? : u.State → Option Nat}

theorem Listed.store {q : Inlet u} (hw : w.Instant answers?) (h : q.Listed w) {s : u.State} (hs : q.source = some s) :
    (q.store (u.poll s)).Listed w := by
  intro s' hs'
  rw [source_store] at hs'
  obtain ⟨xs, ha⟩ := h s hs
  exact ⟨xs.tail, Option.some.inj hs' ▸ hw.next ha⟩

theorem due_le_ahead (answers? : u.State → Option Nat) (q : Inlet u) : q.due answers? ≤ q.ahead answers? + 2 := by
  unfold due
  split
  · omega
  · omega
  · split <;> omega

theorem ahead_of_source (hw : w.Instant answers?) {q : Inlet u} {s : u.State} {xs : List α} (hs : q.source = some s)
    (ha : w.ahead s xs) : q.ahead answers? = xs.length := by
  unfold ahead
  rw [hs]
  exact congrArg (·.getD 0) (hw.counts ha)

/-- What is due from a list is due exactly. -/
theorem Due.exact (hw : w.Instant answers?) {q : Inlet u} {n : Nat} (h : q.Due n) (hl : q.Listed w) :
    q.Due (q.due answers?) ∧ q.due answers? ≤ n := by
  cases h with
  | closed _ hs hb =>
    have hdue : q.due answers? = 0 := by unfold due; rw [hb, hs]
    exact ⟨hdue ▸ .closed 0 hs hb, by omega⟩
  | empty n s hs hb hp =>
    obtain ⟨xs, ha⟩ := hl s hs
    have hdue : q.due answers? = xs.length + 1 := by rw [← ahead_of_source hw hs ha]; unfold due; rw [hb, hs]
    have hle := w.length_le_of_prompt hp xs ha
    exact ⟨hdue ▸ .empty _ _ hs hb (hw.prompt ha), by omega⟩
  | element n s x hs hb hp =>
    obtain ⟨xs, ha⟩ := hl s hs
    have hdue : q.due answers? = xs.length + 2 := by rw [← ahead_of_source hw hs ha]; unfold due; rw [hb]; rfl
    have hle := w.length_le_of_prompt hp xs ha
    exact ⟨hdue ▸ .element _ _ x hs hb (hw.prompt ha), by omega⟩
  | terminal n a hb ht =>
    have hdue : q.due answers? = 1 := by unfold due; rw [hb]; exact if_pos ht
    exact ⟨hdue ▸ .terminal 0 a hb ht, by omega⟩

end Inlet

/-- The source of the inlet is a list. -/
def Account.Listed (w : u.Forecast) (_ : InletId) (c : Account u) : Prop := c.inlet.Listed w

theorem Account.durable_listed {w : u.Forecast} {answers? : u.State → Option Nat} (hw : w.Instant answers?) :
    Account.Durable (Account.Listed w) := by
  intro p c c' h _ hwork
  cases hwork with
  | fill s _ hs => exact Inlet.Listed.store hw h hs
  | take => exact fun s hs => h s (Inlet.source_take _ hs)
  | release => exact fun s hs => by cases hs

/-! ## Plain answers -/

/-- If the entry is about a poll, the answer was an element or the end. -/
def Entry.isPlain : Entry L → Prop
  | .polled _ (.pending _) | .polled _ (.failed _) => False
  | _ => True

theorem Entry.isPlain_of_not_isPoll {e : Entry L} (h : ¬ e.isPoll) : e.isPlain := by
  cases e with
  | polled p r => exact absurd trivial h
  | _ => exact trivial

theorem Entry.isPlain_ofList (p : InletId) (xs : List α) : (.polled p (.ofList xs) : Entry L).isPlain := by
  cases xs <;> exact trivial

namespace Merge

variable {w : u.Forecast} {answers? : u.State → Option Nat} {m m' : Merge L u}

theorem plain_fill (hw : w.Instant answers?) (h : m.EachAccount (Account.Listed w)) (p : InletId) :
    (m.fill p).EachAccount (Account.Listed w) ∧ Extends Entry.isPlain m (m.fill p) := by
  rcases fill_cases m p with hf | ⟨q, s, hf⟩
  · rw [hf]
    exact ⟨h, .refl m⟩
  · constructor
    · intro k q' hq'
      rw [hf.inlets, List.getElem?_set] at hq'
      by_cases hk : p = k
      · subst hk
        rw [if_pos rfl, if_pos (List.getElem?_eq_some_iff.1 hf.here).1] at hq'
        exact Option.some.inj hq' ▸ Inlet.Listed.store hw (h p q hf.here) hf.source
      · rw [if_neg hk] at hq'
        exact h k q' hq'
    · refine ⟨_, hf.history, fun e he => ?_⟩
      rcases List.mem_append.1 he with he | he
      · rw [List.eq_of_mem_replicate he]
        trivial
      · obtain ⟨xs, ha⟩ := h p q hf.here s hf.source
        rw [List.mem_singleton.1 he, hw.reply ha]
        exact Entry.isPlain_ofList p xs

theorem plain_seek (hw : w.Instant answers?) (h : m.EachAccount (Account.Listed w)) (order : List InletId) :
    Extends Entry.isPlain m (m.seek order).2 := by
  refine (seek_induction (motive := fun m' => m'.EachAccount (Account.Listed w) ∧ Extends Entry.isPlain m m')
    (fun m' p ⟨hl, hx⟩ => ?_) m order ⟨h, .refl m⟩).2
  obtain ⟨hl', hx'⟩ := plain_fill hw hl p
  exact ⟨hl', hx.trans hx'⟩

/-- **Every answer in a merge of lists is an element or the end.** -/
theorem Step.plain (h : Step m m') (hw : w.Instant answers?) (hl : m.EachAccount (Account.Listed w)) :
    Extends Entry.isPlain m m' := by
  rcases h.aside_or_tries with ha | htry
  · exact ha.history.mono fun e he => Entry.isPlain_of_not_isPoll (Entry.not_isPoll_of_isSideline he)
  · cases htry with
    | waits choice order => exact plain_seek hw hl order
    | accepts choice order p a q =>
      have htaken : Extends Entry.isPlain (m.seek order).2 ((m.seek order).2.putInlet p q.take.2) :=
        (extends_putInlet _ p q.take.2).mono fun e he => by rw [he]; trivial
      refine ((plain_seek hw hl order).trans htaken).trans ?_
      obtain ⟨rs, hrs, hout, -⟩ := history_dispatch ((m.seek order).2.putInlet p q.take.2) choice p a
      refine ⟨_, hrs, fun e he => Entry.isPlain_of_not_isPoll ?_⟩
      rcases List.mem_cons.1 he with rfl | he
      · exact id
      · rcases List.mem_append.1 he with he | he
        · exact Entry.not_isPoll_of_isCall (isCall_handling he)
        · exact Entry.not_isPoll_of_isOutcome (hout e he)

end Merge
end StreamMerge
