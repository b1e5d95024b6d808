import StreamMerge.InletId
import StreamMerge.Text.Quoted

/-!
# What can go wrong in a merge

Three kinds of error, by who is to blame: the wiring does not suit the strategy (found before anything is
read), a source failed, or a strategy broke the rules it has to keep. Each is a value that says what
happened; its wording is given once, by `Misfit.message`, `Violation.message` and `MergeError.message`.
-/
namespace StreamMerge

open Text

/-! ## Wiring -/

/-- How many inputs a strategy takes: at least `least` and, if there is a bound, at most `most`. -/
structure Arity where
  least : Nat
  most : Option Nat
  deriving DecidableEq, Repr

namespace Arity

/-- The arity admits `count` inputs. -/
def admits (a : Arity) (count : Nat) : Bool :=
  a.least ≤ count && a.most.all (count ≤ ·)

/-- The arity in words. -/
def phrase (a : Arity) : String :=
  match a.most with
  | none => s!"at least {a.least}"
  | some most => if most = a.least then s!"exactly {a.least}" else s!"between {a.least} and {most}"

end Arity

/-- Why a strategy cannot work with the inputs that were connected. -/
inductive Misfit where
  /-- The number of inputs is outside the arity. -/
  | arity (expected : Arity) (count : Nat)
  /-- A pair of inputs is needed. -/
  | pairNeeded (count : Nat)
  /-- An inlet is declared a second time. -/
  | declaredTwice (inlet : InletId)
  /-- An inlet is declared to which nothing is connected. -/
  | notConnected (inlet : InletId) (count : Nat)
  /-- Too few inlets are declared. -/
  | undeclared (declared count : Nat)
  /-- A reason in a strategy's own words. -/
  | stated (reason : String)
  deriving DecidableEq, Repr

/-- The wording of a misfit of the merge called `merge`. -/
def Misfit.message (merge : String) : Misfit → String
  | .arity expected count => s!"{merge} must have {expected.phrase} connected inputs, was {count}"
  | .pairNeeded count => s!"{merge} must have exactly two connected inputs, was {count}"
  | .declaredTwice inlet => s!"{merge} lists input handle {inlet.label} twice"
  | .notConnected inlet count =>
    s!"{merge} declares input handle {inlet.label}, which is not connected ({count} inputs)"
  | .undeclared declared count =>
    s!"{merge} declares {declared} input handles for {count} connected inputs"
  | .stated reason => reason

/-! ## Sources -/

/-- Why a source failed: what the failure says of itself, and what its causes say, nearest first. -/
structure Cause where
  text : String
  sources : List String
  deriving DecidableEq, Repr

/-- The diagnostic form of a cause. -/
def Cause.inspect (c : Cause) : String := s!"UpstreamError({quoted c.text})"

/-! ## Rules of a strategy -/

/-- How a strategy broke the rules of a merge. -/
inductive Violation where
  /-- A state reads from no inlet at all. -/
  | namesNoInlets
  /-- A state reads from an inlet that does not exist. -/
  | namesUnregistered (inlet : InletId) (count : Nat)
  /-- A state reads only from inlets that have ended while others have not. -/
  | namesOnlyTerminated (state : String) (openInlets : Nat)
  /-- One transition emitted twice. -/
  | emittedTwice
  /-- A right element came to be paired while no left one was kept. -/
  | unpaired
  /-- An element of the wrong side arrived. -/
  | wrongSide (inlet : InletId)
  /-- A complaint in a strategy's own words. -/
  | stated (reason : String)
  deriving DecidableEq, Repr

/-- The wording of a violation. -/
def Violation.message : Violation → String
  | .namesNoInlets => "read selector names no ports"
  | .namesUnregistered inlet count =>
    s!"read selector names unregistered port {inlet.label} (merge has {count} inputs)"
  | .namesOnlyTerminated state openInlets =>
    s!"state {state} reads only terminated ports while {openInlets} inputs are still open"
  | .emittedTwice => "more than one element emitted in a single transition"
  | .unpaired => "zip paired a B without an A"
  | .wrongSide inlet => s!"zip received an element of the wrong side on {inlet.label}"
  | .stated reason => reason

/-! ## Merge errors -/

/-- An error that keeps a merge from starting or ends it. -/
inductive MergeError where
  /-- The wiring does not suit the strategy. -/
  | configuration (merge : String) (misfit : Misfit)
  /-- A source failed and the merge ended with its cause. -/
  | sourceFailed (cause : Cause)
  /-- The strategy broke a rule. -/
  | protocol (violation : Violation)
  deriving DecidableEq, Repr

namespace MergeError

/-- The wording of a merge error. -/
def message : MergeError → String
  | .configuration merge misfit => misfit.message merge
  | .sourceFailed cause => s!"upstream failed: {cause.text}"
  | .protocol violation => s!"merge protocol violation: {violation.message}"

/-- The error was found before the merge started. -/
def isConfiguration : MergeError → Bool
  | .configuration .. => true
  | _ => false

/-- What the causes of the error say, nearest first. -/
def sources : MergeError → List String
  | .sourceFailed cause => cause.text :: cause.sources
  | _ => []

/-- The diagnostic form of a merge error. -/
def inspect : MergeError → String
  | .configuration merge misfit =>
    "Configuration \x7b merge: " ++ quoted merge ++ ", message: " ++ quoted (misfit.message merge) ++ " \x7d"
  | .sourceFailed cause => s!"Upstream({cause.inspect})"
  | .protocol violation => s!"Protocol({quoted violation.message})"

end MergeError
end StreamMerge
