import StreamMerge.Source

/-!
# Inlets

An inlet owns one source and keeps at most one thing it has read from it: an element, the end or a failure.
`Inlet.fill` polls the source only while nothing is kept, so a source never runs more than one element
ahead. Taking the end or a failure, or releasing the inlet, gives the source up.
-/
namespace StreamMerge

open Text

/-- What an inlet has for its merge. -/
inductive Arrival (α : Type) where
  | element (x : α)
  | completed
  | failed (cause : Cause)
  deriving DecidableEq, Repr

namespace Arrival

variable {α : Type}

/-- Nothing follows from this inlet. -/
def isTerminal : Arrival α → Bool
  | .element _ => false
  | _ => true

/-- The kind of an arrival in the log. -/
def kind : Arrival α → String
  | .element _ => "element"
  | .completed => "completed"
  | .failed _ => "failed"

/-- What a ready answer of a source brings to its inlet. -/
def ofReply? : Reply α → Option (Arrival α)
  | .element x => some (.element x)
  | .failed c => some (.failed c)
  | .ended => some .completed
  | .pending _ => none

/-- The diagnostic form of an arrival, given that of its element. -/
def inspect (element : α → String) : Arrival α → String
  | .element x => s!"Element({element x})"
  | .completed => "Completed"
  | .failed c => s!"Failed({c.inspect})"

end Arrival

/-- How far an inlet has come. -/
inductive InletStatus where
  /-- More may follow. -/
  | live
  /-- Its end was taken. -/
  | completed
  /-- Its failure was taken. -/
  | failed (cause : Cause)
  /-- It was released before its end. -/
  | cancelled
  deriving DecidableEq, Repr

namespace InletStatus

/-- Nothing follows. -/
def isTerminal : InletStatus → Bool
  | .live => false
  | _ => true

/-- The diagnostic form of a status. -/
def inspect : InletStatus → String
  | .live => "Open"
  | .completed => "Completed"
  | .failed c => s!"Failed({c.inspect})"
  | .cancelled => "Cancelled"

end InletStatus

/-- An inlet of a source of the kind `u`. -/
structure Inlet {α : Type} (u : Source α) where
  /-- The source, until it is given up. -/
  source : Option u.State
  /-- What was read and not taken yet. -/
  buffer : Option (Arrival α)
  status : InletStatus
  /-- How many ready answers the source has given. -/
  pulls : Nat

namespace Inlet

variable {α : Type} {u : Source α}

/-- An inlet that has read nothing yet. -/
def new (s : u.State) : Inlet u := ⟨some s, none, .live, 0⟩

/-- More may follow from this inlet. -/
def isOpen (p : Inlet u) : Bool := !p.status.isTerminal

/-- An element is kept. -/
def hasElement (p : Inlet u) : Bool := p.buffer.any (!·.isTerminal)

/-- The end or a failure is kept. -/
def hasTerminal (p : Inlet u) : Bool := p.buffer.any (·.isTerminal)

/-- Stores the outcome of a poll. -/
def store (p : Inlet u) (r : Polled α u.State) : Inlet u :=
  match Arrival.ofReply? r.reply with
  | none => { p with source := some r.next }
  | some a => { p with source := some r.next, buffer := some a, pulls := p.pulls + 1 }

/-- Polls the source if nothing is kept, and says what the poll yielded. -/
def fill (p : Inlet u) : Option (Polled α u.State) × Inlet u :=
  match p.buffer, p.source with
  | none, some s => let r := u.poll s; (some r, p.store r)
  | _, _ => (none, p)

/-- Takes the element that is kept; the end or a failure stays where it is. -/
def takeElement (p : Inlet u) : Option α × Inlet u :=
  match p.buffer with
  | some (.element x) => (some x, { p with buffer := none })
  | _ => (none, p)

/-- Takes whatever is kept. The end and a failure close the inlet and give the source up. -/
def take (p : Inlet u) : Option (Arrival α) × Inlet u :=
  match p.buffer with
  | none => (none, p)
  | some (.element x) => (some (.element x), { p with buffer := none })
  | some .completed => (some .completed, { p with buffer := none, status := .completed, source := none })
  | some (.failed c) => (some (.failed c), { p with buffer := none, status := .failed c, source := none })

/-- Drops what is kept and gives the source up; says whether there was a source to give up. An inlet that has
ended keeps its status. -/
def release (p : Inlet u) : Bool × Inlet u :=
  (p.source.isSome,
    { p with buffer := none, source := none, status := if p.isOpen then .cancelled else p.status })

/-- The diagnostic form of the inlet with the number `id`. -/
def inspect (id : InletId) (p : Inlet u) : String :=
  let kept := match p.buffer with
    | none => "None"
    | some a => if a.isTerminal then "Some(true)" else "Some(false)"
  "Port \x7b id: " ++ id.inspect ++ ", status: " ++ p.status.inspect ++ ", buffered: " ++ kept
    ++ ", pulls: " ++ toString p.pulls ++ ", .. \x7d"

end Inlet
end StreamMerge
