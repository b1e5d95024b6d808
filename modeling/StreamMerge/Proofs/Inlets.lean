import StreamMerge.Proofs.History

/-!
# Inlets at work

What filling, taking from and releasing an inlet do to it, alone and inside its merge. `Inlet.Sound` is the
invariant of a single inlet: it has its source exactly while it is open, and only then may it keep anything.
-/
namespace StreamMerge

variable {α β : Type} {L : Strategy α β} {u : Source α}

theorem Arrival.isTerminal_eq_false {a : Arrival α} : a.isTerminal = false ↔ ∃ x, a = .element x := by
  cases a <;> simp [Arrival.isTerminal]

/-! ## A single inlet -/

namespace Inlet

/-- The element that an inlet keeps. -/
def kept (q : Inlet u) : Option α :=
  match q.buffer with
  | some (.element x) => some x
  | _ => none

/-- An inlet has its source exactly while it is open, and keeps something only then. -/
structure Sound (q : Inlet u) : Prop where
  source_isSome : q.source.isSome = q.isOpen
  isOpen_of_buffer : q.buffer.isSome = true → q.isOpen = true

theorem sound_new (s : u.State) : (new s).Sound := ⟨rfl, by simp [new]⟩

theorem isOpen_iff {q : Inlet u} : q.isOpen = true ↔ q.status = .live := by
  unfold isOpen InletStatus.isTerminal
  cases q.status <;> simp

theorem hasElement_iff {q : Inlet u} : q.hasElement = true ↔ ∃ x, q.buffer = some (.element x) := by
  unfold hasElement
  cases q.buffer with
  | none => simp
  | some a => cases a <;> simp [Arrival.isTerminal]

theorem hasTerminal_iff {q : Inlet u} :
    q.hasTerminal = true ↔ ∃ a, q.buffer = some a ∧ a.isTerminal = true := by
  unfold hasTerminal
  cases q.buffer <;> simp

/-! ### Filling -/

theorem fill_cases (q : Inlet u) :
    q.fill = (none, q) ∨
    ∃ s, q.buffer = none ∧ q.source = some s ∧ q.fill = (some (u.poll s), q.store (u.poll s)) := by
  unfold fill
  split
  · rename_i s hb hs
    exact Or.inr ⟨s, hb, hs, rfl⟩
  · exact Or.inl rfl

@[simp] theorem status_store (q : Inlet u) (r : Polled α u.State) : (q.store r).status = q.status := by
  unfold store; split <;> rfl

@[simp] theorem isOpen_store (q : Inlet u) (r : Polled α u.State) : (q.store r).isOpen = q.isOpen := by
  simp [isOpen]

@[simp] theorem source_store (q : Inlet u) (r : Polled α u.State) : (q.store r).source = some r.next := by
  unfold store; split <;> rfl

theorem buffer_store {q : Inlet u} (h : q.buffer = none) (r : Polled α u.State) :
    (q.store r).buffer = Arrival.ofReply? r.reply := by
  unfold store; split <;> simp_all

theorem sound_store {q : Inlet u} (h : q.Sound) {s : u.State} (hs : q.source = some s)
    (r : Polled α u.State) : (q.store r).Sound := by
  have ho : q.isOpen = true := by rw [← h.source_isSome, hs]; rfl
  exact ⟨by simp [ho], fun _ => by simp [ho]⟩

/-! ### Taking -/

theorem take_kept {q : Inlet u} {a : Arrival α} (h : q.buffer = some a) : q.take.1 = some a := by
  unfold take; rw [h]; cases a <;> rfl

theorem take_element {q : Inlet u} {x : α} (h : q.buffer = some (.element x)) :
    q.take.2 = { q with buffer := none } := by
  unfold take; rw [h]

theorem isOpen_take_terminal {q : Inlet u} {a : Arrival α} (h : q.buffer = some a)
    (ht : a.isTerminal = true) : q.take.2.isOpen = false ∧ q.take.2.status ≠ .cancelled := by
  unfold take
  cases a with
  | element x => simp [Arrival.isTerminal] at ht
  | completed => simp [h, isOpen, InletStatus.isTerminal]
  | failed c => simp [h, isOpen, InletStatus.isTerminal]

/-- With its end or failure a source is given up. -/
theorem source_take_terminal {q : Inlet u} {a : Arrival α} (h : q.buffer = some a) (ht : a.isTerminal = true) :
    q.take.2.source = none := by
  unfold take
  rw [h]
  cases a <;> first | rfl | cases ht

theorem buffer_take {q : Inlet u} {a : Arrival α} (h : q.buffer = some a) : q.take.2.buffer = none := by
  unfold take; rw [h]; cases a <;> rfl

theorem sound_take {q : Inlet u} (h : q.Sound) : q.take.2.Sound := by
  unfold take
  split
  · exact h
  · exact ⟨h.source_isSome, by simp⟩
  · exact ⟨by simp [isOpen, InletStatus.isTerminal], by simp⟩
  · exact ⟨by simp [isOpen, InletStatus.isTerminal], by simp⟩

/-! ### Releasing -/

@[simp] theorem isOpen_release (q : Inlet u) : q.release.2.isOpen = false := by
  cases h : q.status <;> simp [release, isOpen, h, InletStatus.isTerminal]

@[simp] theorem buffer_release (q : Inlet u) : q.release.2.buffer = none := rfl

@[simp] theorem source_release (q : Inlet u) : q.release.2.source = none := rfl

theorem status_release (q : Inlet u) :
    q.release.2.status = if q.isOpen then .cancelled else q.status := rfl

@[simp] theorem release_release (q : Inlet u) : q.release.2.release.2 = q.release.2 := by
  have h : q.release.2.release.2.status = q.release.2.status := by
    rw [status_release, isOpen_release]; rfl
  exact congrArg (fun t => ({ q with buffer := none, source := none, status := t } : Inlet u)) h

theorem sound_release (q : Inlet u) : q.release.2.Sound := ⟨by simp, by simp⟩

end Inlet

/-! ## Inlets in their merge -/

namespace Merge

theorem inletIs_iff {m : Merge L u} {p : InletId} {test : Inlet u → Bool} :
    m.inletIs p test = true ↔ ∃ q, m.inlets[p]? = some q ∧ test q = true := by
  unfold inletIs
  cases m.inlets[p]? <;> simp

theorem inletIs_iff_of_some {m : Merge L u} {p : InletId} {q : Inlet u} (h : m.inlets[p]? = some q)
    (test : Inlet u → Bool) : m.inletIs p test = test q := by
  simp [inletIs, h]

theorem lt_of_isOpen {m : Merge L u} {p : InletId} (h : m.inletIs p (·.isOpen) = true) : p < m.inlets.length := by
  obtain ⟨q, hq, -⟩ := inletIs_iff.1 h
  exact (List.getElem?_eq_some_iff.1 hq).1

/-! ### Putting and releasing -/

@[simp] theorem inlets_putInlet (m : Merge L u) (p : InletId) (q : Inlet u) :
    (m.putInlet p q).inlets = m.inlets.set p q := by
  unfold putInlet; dsimp only; split <;> rfl

theorem link_putInlet (m : Merge L u) (p : InletId) (q : Inlet u) : (m.putInlet p q).link = m.link := by
  unfold putInlet; dsimp only; split <;> rfl

theorem frame_putInlet (m : Merge L u) (p : InletId) (q : Inlet u) : Frame m (m.putInlet p q) := by
  unfold putInlet
  dsimp only
  split
  · exact ⟨rfl, rfl, rfl, by simp [note], rfl, rfl, rfl, rfl, 0, by simp [note]⟩
  · exact ⟨rfl, rfl, rfl, by simp, rfl, rfl, rfl, rfl, 0, by simp⟩

theorem extends_putInlet (m : Merge L u) (p : InletId) (q : Inlet u) :
    Extends (· = .dropped p) m (m.putInlet p q) := by
  unfold putInlet
  dsimp only
  split
  · exact ⟨[.dropped p], history_note _ _, by simp⟩
  · exact .of_eq rfl

/-- It is noted when putting another inlet in the place of one gives the source up. -/
theorem history_putInlet_of_some {m : Merge L u} {p : InletId} {q q' : Inlet u} (hq : m.inlets[p]? = some q) :
    (m.putInlet p q').history =
      m.history ++ if q.source.isSome && q'.source.isNone then [.dropped p] else [] := by
  unfold putInlet
  rw [inletIs_iff_of_some hq]
  dsimp only
  split
  · exact history_note _ _
  · exact (List.append_nil _).symm

/-- Putting an inlet whose source stays is not noted. -/
theorem history_putInlet {m : Merge L u} {p : InletId} {q q' : Inlet u} (hq : m.inlets[p]? = some q)
    (hs : q'.source = q.source) : (m.putInlet p q').history = m.history := by
  rw [history_putInlet_of_some hq, hs]
  cases q.source <;> simp

@[simp] theorem inlets_release (m : Merge L u) (p : InletId) :
    (m.release p).inlets = m.inlets.modify p (·.release.2) := by
  unfold release
  cases h : m.inlets[p]? with
  | none => exact (List.modify_eq_self (List.getElem?_eq_none_iff.1 h)).symm
  | some q =>
    obtain ⟨hp, rfl⟩ := List.getElem?_eq_some_iff.1 h
    apply List.ext_getElem? fun k => ?_
    rw [inlets_putInlet, List.getElem?_set, List.getElem?_modify]
    by_cases hk : p = k
    · subst hk; simp [hp]
    · simp [hk]

theorem frame_release (m : Merge L u) (p : InletId) : Frame m (m.release p) := by
  unfold release
  split
  · exact .refl m
  · exact frame_putInlet m p _

theorem extends_release (m : Merge L u) (p : InletId) : Extends (· = .dropped p) m (m.release p) := by
  unfold release
  split
  · exact .refl m
  · exact extends_putInlet m p _

/-- Releasing inlets one after another keeps whatever releasing one keeps. -/
theorem foldl_release_induction {motive : Merge L u → Prop} (h : ∀ m p, motive m → motive (m.release p)) :
    ∀ (ps : List InletId) (m : Merge L u), motive m → motive (ps.foldl release m)
  | [], _, hm => hm
  | p :: ps, m, hm => foldl_release_induction h ps (m.release p) (h m p hm)

theorem frame_releaseAll (m : Merge L u) : Frame m m.releaseAll :=
  foldl_release_induction (motive := Frame m) (fun _ p h => h.trans (frame_release _ p)) _ m (.refl m)

theorem extends_releaseAll (m : Merge L u) : Extends (fun e => ∃ p, e = .dropped p) m m.releaseAll :=
  foldl_release_induction (motive := Extends (fun e => ∃ p, e = .dropped p) m)
    (fun _ p h => h.trans ((extends_release _ p).mono fun _ he => ⟨p, he⟩)) _ m (.refl m)

theorem getElem?_foldl_release (k : InletId) : ∀ (ps : List InletId) (m : Merge L u),
    (ps.foldl release m).inlets[k]? = if k ∈ ps then m.inlets[k]?.map (·.release.2) else m.inlets[k]?
  | [], m => by simp
  | p :: ps, m => by
    rw [List.foldl_cons, getElem?_foldl_release k ps (m.release p), inlets_release, List.getElem?_modify]
    by_cases hp : p = k
    · subst hp
      cases m.inlets[p]? <;> simp
    · have hk : k ≠ p := Ne.symm hp
      simp [hp, hk]

theorem getElem?_releaseAll (m : Merge L u) (k : InletId) :
    m.releaseAll.inlets[k]? = m.inlets[k]?.map (·.release.2) := by
  unfold releaseAll inletIds
  rw [getElem?_foldl_release]
  by_cases h : k < m.inlets.length
  · simp [h]
  · simp [h]

/-! ### Around releases -/

/-- A change that leaves the inlets alone, and the notes about them: it may as well be made after a release as before. -/
structure Apart (f : Merge L u → Merge L u) : Prop where
  inlets : ∀ m, (f m).inlets = m.inlets
  put : ∀ (m : Merge L u) inlets, f { m with inlets } = { f m with inlets }
  note : ∀ m p, f (m.note (.dropped p)) = (f m).note (.dropped p)

section
variable {f : Merge L u → Merge L u}

theorem Apart.putInlet (h : Apart f) (m : Merge L u) (p : InletId) (q : Inlet u) :
    f (m.putInlet p q) = (f m).putInlet p q := by
  have hi : (f m).inletIs p (·.source.isSome) = m.inletIs p (·.source.isSome) := by
    unfold inletIs
    rw [h.inlets]
  unfold Merge.putInlet
  dsimp only
  rw [hi, h.inlets]
  split
  · rw [h.note, h.put]
  · rw [h.put]

theorem Apart.release (h : Apart f) (m : Merge L u) (p : InletId) : f (m.release p) = (f m).release p := by
  unfold Merge.release
  rw [h.inlets]
  cases m.inlets[p]? with
  | none => rfl
  | some q => exact h.putInlet m p q.release.2

theorem Apart.releaseAll (h : Apart f) (m : Merge L u) : f m.releaseAll = (f m).releaseAll := by
  unfold Merge.releaseAll inletIds
  rw [h.inlets]
  exact (List.foldl_hom f fun m p => (h.release m p).symm).symm

end

end Merge
end StreamMerge
