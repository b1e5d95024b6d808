import Mathlib.Algebra.GroupWithZero.Nat
import StreamMerge.Merge.Run

/-!
# The history of a merge

The journal read as a list, oldest entry first, and what can be read off it: what the source of an inlet has
yielded and what the strategy was handed of it, what was emitted, what was delivered, how much credit was
taken. `Frame` collects what reading and releasing inlets leave alone, and `Extends` says that a merge has only
written more.
-/
namespace StreamMerge

variable {α β : Type} {L : Strategy α β} {u : Source α}

/-! ## Reading entries -/

namespace Entry

/-- The element that the source of `p` yielded. -/
def yielded? (p : InletId) : Entry L → Option α
  | .polled q (.element x) => if q = p then some x else none
  | _ => none

/-- The element of `p` that the strategy was handed. -/
def handed? (p : InletId) : Entry L → Option α
  | .onElement q x _ _ => if q = p then some x else none
  | _ => none

/-- The element that a transition emitted. -/
def emitted? : Entry L → Option β
  | .emitted y => some y
  | _ => none

/-- What was put into the queue to the consumer. -/
def delivered? : Entry L → Option (Delivery β)
  | .delivered d => some d
  | _ => none

/-- The credit that was taken from the signal queue. -/
def granted? : Entry L → Option Nat
  | .took (.request n) => some n
  | _ => none

/-- An event of `p` is taken up, or the strategy is called about one. -/
def concerns (p : InletId) : Entry L → Prop
  | .arrived _ q _ | .onElement q _ _ _ | .onEnd q _ _ _ | .onFailure q _ _ _ _ => q = p
  | _ => False

/-- An event of an inlet is taken up. -/
def isArrival : Entry L → Prop
  | .arrived .. => True
  | _ => False

/-- A source was polled. -/
def isPoll : Entry L → Prop
  | .polled .. => True
  | _ => False

end Entry

namespace Merge

/-- The journal, oldest entry first. -/
def history (m : Merge L u) : List (Entry L) := m.journal.toList

/-- The elements that the source of `p` has yielded. -/
def yielded (m : Merge L u) (p : InletId) : List α := m.history.filterMap (Entry.yielded? p)

/-- The elements of `p` that the strategy was handed. -/
def handed (m : Merge L u) (p : InletId) : List α := m.history.filterMap (Entry.handed? p)

/-- The elements that the transitions emitted. -/
def emissions (m : Merge L u) : List β := m.history.filterMap Entry.emitted?

/-- What was put into the queue to the consumer. -/
def deliveries (m : Merge L u) : List (Delivery β) := m.history.filterMap Entry.delivered?

/-- The credit taken so far. -/
def granted (m : Merge L u) : Nat := (m.history.filterMap Entry.granted?).sum

/-! ## What stays the same -/

/-- A merge without its inlets, its link, its journal and its place in the run. -/
structure Core {α β : Type} (L : Strategy α β) where
  name : String
  tracing : Bool
  handles : List InletId
  memory : L.Memory
  state : L.State
  policy : EndPolicy L.Key
  credit : Credit
  turn : Nat
  unsent : Option β
  handled : Nat

def core (m : Merge L u) : Core L :=
  ⟨m.name, m.tracing, m.handles, m.memory, m.state, m.policy, m.credit, m.turn, m.unsent, m.handled⟩

theorem credit_of_core {m m' : Merge L u} (h : m'.core = m.core) : m'.credit = m.credit := congrArg Core.credit h

theorem turn_of_core {m m' : Merge L u} (h : m'.core = m.core) : m'.turn = m.turn := congrArg Core.turn h

theorem unsent_of_core {m m' : Merge L u} (h : m'.core = m.core) : m'.unsent = m.unsent := congrArg Core.unsent h

/-- `m'` has only written entries that are `ok` to the journal of `m`. -/
def Extends (ok : Entry L → Prop) (m m' : Merge L u) : Prop :=
  ∃ es, m'.history = m.history ++ es ∧ ∀ e ∈ es, ok e

/-- What is left alone when inlets are read or released: the core, the place in the run, and of the link all but
the cancellations that sources call for. -/
structure Frame (m m' : Merge L u) : Prop where
  core : m'.core = m.core
  stage : m'.stage = m.stage
  awake : m'.awake = m.awake
  count : m'.inlets.length = m.inlets.length
  senders : m'.link.senders = m.link.senders
  attached : m'.link.attached = m.link.attached
  deliveries : m'.link.deliveries = m.link.deliveries
  receiving : m'.link.receiving = m.link.receiving
  signals : ∃ n, m'.link.signals = m.link.signals ++ List.replicate n .cancel

section
variable {m m' m'' : Merge L u} {ok ok' : Entry L → Prop}

theorem Extends.refl (m : Merge L u) : Extends ok m m := ⟨[], by simp, by simp⟩

theorem Extends.trans (h : Extends ok m m') (h' : Extends ok m' m'') : Extends ok m m'' := by
  obtain ⟨es, he, hok⟩ := h
  obtain ⟨es', he', hok'⟩ := h'
  refine ⟨es ++ es', by rw [he', he, List.append_assoc], fun e hmem => ?_⟩
  rcases List.mem_append.1 hmem with hmem | hmem
  · exact hok e hmem
  · exact hok' e hmem

theorem Extends.mono (h : Extends ok m m') (hi : ∀ e, ok e → ok' e) : Extends ok' m m' := by
  obtain ⟨es, he, hok⟩ := h
  exact ⟨es, he, fun e hmem => hi e (hok e hmem)⟩

theorem Extends.of_eq (h : m'.history = m.history) : Extends ok m m' := ⟨[], by simp [h], by simp⟩

theorem Extends.filterMap_eq {γ : Type} (h : Extends ok m m') {f : Entry L → Option γ}
    (hf : ∀ e, ok e → f e = none) : m'.history.filterMap f = m.history.filterMap f := by
  obtain ⟨es, he, hok⟩ := h
  have : es.filterMap f = [] := List.filterMap_eq_nil_iff.2 fun e hmem => hf e (hok e hmem)
  rw [he, List.filterMap_append, this, List.append_nil]

theorem Frame.refl (m : Merge L u) : Frame m m :=
  ⟨rfl, rfl, rfl, rfl, rfl, rfl, rfl, rfl, 0, by simp⟩

theorem Frame.trans (h : Frame m m') (h' : Frame m' m'') : Frame m m'' := by
  obtain ⟨k, hk⟩ := h.signals
  obtain ⟨k', hk'⟩ := h'.signals
  exact ⟨h'.core.trans h.core, h'.stage.trans h.stage, h'.awake.trans h.awake, h'.count.trans h.count,
    h'.senders.trans h.senders, h'.attached.trans h.attached, h'.deliveries.trans h.deliveries,
    h'.receiving.trans h.receiving, k + k', by rw [hk', hk, List.append_assoc, List.replicate_append_replicate]⟩

namespace Frame

variable (h : Frame m m')
include h

theorem memory : m'.memory = m.memory := congrArg Core.memory h.core

theorem state : m'.state = m.state := congrArg Core.state h.core

theorem policy : m'.policy = m.policy := congrArg Core.policy h.core

theorem credit : m'.credit = m.credit := credit_of_core h.core

theorem turn : m'.turn = m.turn := turn_of_core h.core

theorem unsent : m'.unsent = m.unsent := unsent_of_core h.core

end Frame
end

/-! ## Writing entries -/

@[simp] theorem history_note (m : Merge L u) (e : Entry L) : (m.note e).history = m.history ++ [e] := by
  simp [history, note]

@[simp] theorem history_log (m : Merge L u) (r : Record) : (m.log r).history = m.history ++ [.logged r] :=
  history_note m _

theorem frame_note (m : Merge L u) (e : Entry L) : Frame m (m.note e) :=
  ⟨rfl, rfl, rfl, rfl, rfl, rfl, rfl, rfl, 0, by simp [note]⟩

theorem frame_log (m : Merge L u) (r : Record) : Frame m (m.log r) := frame_note m _

theorem extends_note {ok : Entry L → Prop} (m : Merge L u) {e : Entry L} (h : ok e) : Extends ok m (m.note e) :=
  ⟨[e], history_note m e, by simpa using h⟩

end Merge
end StreamMerge
