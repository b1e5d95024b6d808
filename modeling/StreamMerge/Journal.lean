import StreamMerge.Link
import StreamMerge.Inlet
import StreamMerge.Strategy

/-!
# The journal of a merge

Everything a merge does is written to its journal in the order in which it happens: polls and releases of
sources, signals taken, events handed to the strategy, elements emitted and delivered. Among the entries are
the records of the log that a merge keeps for its operators; `Record.level`, `Record.message` and
`Record.fields` give their text.
-/
namespace StreamMerge

/-! ## Log records -/

/-- A record of the log. States and policies are given as they are shown. -/
inductive Record where
  /-- A merge of so many inputs is polled for the first time. -/
  | opened (merge : String) (inputs : Nat)
  /-- The merge starts under a policy. -/
  | started (policy : String)
  /-- An inlet event was handled; `pulls` counts the ready answers of the inlet's source. -/
  | transition (inlet : InletId) (kind : String) (pulls : Nat) (source target : String)
  /-- A transition broke a rule. -/
  | violated (violation : Violation) (inlet : InletId) (state : String)
  /-- Another end policy is followed. -/
  | policyReplaced (policy : String)
  /-- A transition released an inlet that does not exist. -/
  | unknownRelease (inlet : InletId)
  /-- A state reads only from inlets that have ended. -/
  | onlyTerminated (state : String) (openInlets : Nat)
  /-- The merge ended normally. -/
  | completed (handled released : Nat)
  /-- The merge was cancelled with `credit` units of credit unused. -/
  | cancelled (handled released credit : Nat)
  /-- The merge failed. -/
  | failed (e : MergeError) (handled released : Nat)
  deriving DecidableEq, Repr

namespace Record

/-- How serious a record is; the first one only marks the extent of the merge. -/
def level : Record → String
  | .opened .. => "SPAN"
  | .started .. | .completed .. | .cancelled .. => "INFO"
  | .transition .. | .policyReplaced .. => "DEBUG"
  | .violated .. | .unknownRelease .. | .onlyTerminated .. | .failed .. => "WARN"

/-- The text of a record. -/
def message : Record → String
  | .opened .. => "merge"
  | .started .. => "merge started"
  | .transition .. => "transition"
  | .violated v .. => v.message
  | .policyReplaced .. => "completion policy replaced"
  | .unknownRelease .. => "cancel requested for unregistered port"
  | .onlyTerminated .. => "selector names only terminated ports"
  | .completed .. => "merge completed"
  | .cancelled .. => "merge cancelled"
  | .failed .. => "merge failed"

/-- The named values of a record. -/
def fields : Record → List (String × String)
  | .opened merge inputs => [("merge", merge), ("inputs", toString inputs)]
  | .started policy => [("policy", policy)]
  | .transition inlet kind pulls source target =>
    [("port", inlet.label), ("event", kind), ("pulls", toString pulls), ("from", source), ("to", target)]
  | .violated _ inlet state => [("port", inlet.label), ("state", state)]
  | .policyReplaced policy => [("policy", policy)]
  | .unknownRelease inlet => [("port", inlet.label)]
  | .onlyTerminated state openInlets => [("state", state), ("open", toString openInlets)]
  | .completed handled released =>
    [("dispatched", toString handled), ("released", toString released)]
  | .cancelled handled released credit =>
    [("dispatched", toString handled), ("released", toString released), ("demand", toString credit)]
  | .failed e handled released =>
    [("err", e.message), ("dispatched", toString handled), ("released", toString released)]

end Record

/-! ## Entries -/

/-- One entry of the journal of a merge under the strategy `L`. -/
inductive Entry {α β : Type} (L : Strategy α β) where
  /-- The source of `inlet` was polled. -/
  | polled (inlet : InletId) (reply : Reply α)
  /-- The source of `inlet` called for cancellation while it was polled. -/
  | called (inlet : InletId)
  /-- The source of `inlet` was given up. -/
  | dropped (inlet : InletId)
  /-- A signal was taken. -/
  | took (signal : Signal)
  /-- An event of `inlet` was taken up while `choice` was in force. -/
  | arrived (choice : Choice) (inlet : InletId) (arrival : Arrival α)
  /-- The strategy handled an element. -/
  | onElement (inlet : InletId) (x : α) (source target : L.State)
  /-- The strategy handled the end of an inlet. -/
  | onEnd (inlet : InletId) (key : L.Key) (source target : L.State)
  /-- The strategy handled the failure of an inlet. -/
  | onFailure (inlet : InletId) (key : L.Key) (cause : Cause) (source target : L.State)
  /-- A transition emitted an element. -/
  | emitted (y : β)
  /-- Something was put into the queue to the consumer. -/
  | delivered (d : Delivery β)
  /-- A record was logged. -/
  | logged (r : Record)

end StreamMerge
