import StreamMerge.MergeError

/-!
# Sources

A source is asked, or polled, for its next element. It need not have one yet, it may fail, and it may end. A
source is given by its inner state and by what a poll does; nothing is assumed of either, so that every
statement about merges holds for arbitrary sources.
-/
namespace StreamMerge

/-- The answer of a source to a poll. -/
inductive Reply (α : Type) where
  /-- The next element. -/
  | element (x : α)
  /-- The source failed. -/
  | failed (cause : Cause)
  /-- There are no more elements. -/
  | ended
  /-- Nothing yet; `again` says that the source itself asked to be polled once more. -/
  | pending (again : Bool)
  deriving DecidableEq, Repr

namespace Reply

/-- The answer is there: an element, a failure or the end. -/
def isReady {α : Type} : Reply α → Bool
  | .pending _ => false
  | _ => true

/-- Changes the element of an answer. -/
def map {α β : Type} (f : α → β) : Reply α → Reply β
  | .element x => .element (f x)
  | .failed c => .failed c
  | .ended => .ended
  | .pending again => .pending again

end Reply

/-- What a poll of a source yields: its answer, how often the source called for the merge to be cancelled
while it was polled, and its state afterwards. -/
structure Polled (α σ : Type) where
  reply : Reply α
  cancels : Nat
  next : σ

/-- A kind of source of elements of `α`. -/
structure Source (α : Type) where
  /-- The inner state of a source of this kind. -/
  State : Type
  /-- What a poll does in a given state. -/
  poll : State → Polled α State

/-- Sources of two kinds side by side, their elements changed to a common type. -/
def Source.either {α β γ : Type} (f : α → γ) (u : Source α) (g : β → γ) (v : Source β) : Source γ where
  State := u.State ⊕ v.State
  poll
    | .inl s => let r := u.poll s; ⟨r.reply.map f, r.cancels, .inl r.next⟩
    | .inr s => let r := v.poll s; ⟨r.reply.map g, r.cancels, .inr r.next⟩

end StreamMerge
