import StreamMerge.Credit
import StreamMerge.Journal
import StreamMerge.Settings

/-!
# Merges

A merge reads its inlets as its strategy directs and delivers what the strategy emits, but never more than its
consumer asked for. `Merge` is its complete state; `Stage` says where it stands between two steps.
`setUp` connects sources to a strategy, or says why they do not suit it.
-/
namespace StreamMerge

/-! ## State -/

/-- How a merge ends without an error. -/
inductive Outcome where
  /-- Every inlet has ended, or the strategy ended the merge. -/
  | completed
  /-- Nothing more was wanted. -/
  | cancelled
  deriving DecidableEq, Repr

/-- The result of a run. -/
abbrev Verdict := Except MergeError Outcome

/-- What credit is needed for. -/
inductive Aim where
  /-- To read on. -/
  | read
  /-- To deliver what was emitted; then the merge ends if it is `closing`. -/
  | deliver (closing : Bool)
  deriving DecidableEq, Repr

/-- Where a run stands. -/
inductive Stage where
  /-- It has not been polled yet. -/
  | unpolled
  /-- A transition is done: what it emitted is delivered next. -/
  | settling (closing : Bool)
  /-- It takes all signals that have arrived. -/
  | draining (aim : Aim)
  /-- It takes signals until there is credit. -/
  | awaiting (aim : Aim)
  /-- It tries the inlets in the order `order` that `choice` gave, after taking signals. -/
  | attempting (choice : Choice) (order : List InletId)
  /-- It has ended. -/
  | ended (verdict : Verdict)
  /-- It was given up before it ended. -/
  | abandoned

/-- The stage is final. -/
def Stage.isFinal : Stage → Bool
  | .ended _ | .abandoned => true
  | _ => false

/-- A merge under the strategy `L` of sources of the kind `u`. -/
structure Merge {α β : Type} (L : Strategy α β) (u : Source α) where
  name : String
  tracing : Bool
  /-- The inlets in the order the strategy declared. -/
  handles : List InletId
  memory : L.Memory
  state : L.State
  policy : EndPolicy L.Key
  inlets : List (Inlet u)
  credit : Credit
  /-- The inlet from which the rotating preference starts. -/
  turn : Nat
  /-- An element that was emitted and not delivered yet. -/
  unsent : Option β
  /-- How many inlet events were handled. -/
  handled : Nat
  stage : Stage
  /-- There is something to do before the run has to wait. -/
  awake : Bool
  link : Link β
  journal : Array (Entry L)

namespace Merge

variable {α β : Type} {L : Strategy α β} {u : Source α}

/-! ## Set-up -/

/-- Why a strategy cannot run a merge of `count` inputs, or the handles it declares, with what it remembers of
being asked. -/
def declare (L : Strategy α β) (count : Nat) : Except MergeError (List InletId) × L.Memory :=
  match L.handles L.fresh count with
  | (.error e, memory) => (.error e, memory)
  | (.ok inlets, memory) =>
    match misfit? count inlets with
    | some misfit => (.error (.configuration L.name misfit), memory)
    | none => (.ok inlets, memory)

/-- A merge of `sources` under `L`, or the error that keeps it from starting together with the journal of the
attempt: the sources are given up in order without having been polled. -/
def setUp (L : Strategy α β) (u : Source α) (settings : Settings) (sources : List u.State) :
    Except (MergeError × Array (Entry L)) (Merge L u) :=
  match declare L sources.length with
  | (.error e, _) => .error (e, ((List.range sources.length).map Entry.dropped).toArray)
  | (.ok handles, memory) =>
    .ok {
      name := settings.name.getD L.name
      tracing := settings.tracing
      handles
      memory
      state := L.start memory
      policy := L.policy memory
      inlets := sources.map Inlet.new
      credit := .none
      turn := 0
      unsent := none
      handled := 0
      stage := .unpolled
      awake := false
      link := .fresh
      journal := #[] }

/-! ## Inlets and journal -/

/-- Writes an entry to the journal. -/
def note (m : Merge L u) (e : Entry L) : Merge L u := { m with journal := m.journal.push e }

/-- Writes a record to the log. -/
def log (m : Merge L u) (r : Record) : Merge L u := m.note (.logged r)

/-- The inlet `p` exists and satisfies `test`. -/
def inletIs (m : Merge L u) (p : InletId) (test : Inlet u → Bool) : Bool := m.inlets[p]?.any test

/-- The inlets of a merge by number. -/
def inletIds (m : Merge L u) : List InletId := List.range m.inlets.length

/-- How many inlets are open. -/
def openInlets (m : Merge L u) : Nat := m.inlets.countP (·.isOpen)

/-- Puts `q` in the place of the inlet `p`, and notes it when that gives the source up. -/
def putInlet (m : Merge L u) (p : InletId) (q : Inlet u) : Merge L u :=
  let givenUp := m.inletIs p (·.source.isSome) && q.source.isNone
  let m := { m with inlets := m.inlets.set p q }
  if givenUp then m.note (.dropped p) else m

/-- Releases the inlet `p`. -/
def release (m : Merge L u) (p : InletId) : Merge L u :=
  match m.inlets[p]? with
  | none => m
  | some q => m.putInlet p q.release.2

/-- Releases every inlet, in order. -/
def releaseAll (m : Merge L u) : Merge L u := m.inletIds.foldl release m

/-- Puts something into the queue to the consumer. -/
def deliver (m : Merge L u) (d : Delivery β) : Merge L u :=
  let sent := { m with link := m.link.deliver d }
  if m.link.receiving then sent.note (.delivered d) else sent

/-! ## The end of a run -/

/-- Ends the run: every inlet that is left is released, the consumer learns of an end or an error, and the log
says how the merge went. -/
def finish (m : Merge L u) (verdict : Verdict) : Merge L u :=
  let released := m.inlets.countP (·.source.isSome)
  let m := m.releaseAll
  let m := match verdict with
    | .ok .completed => (m.deliver .complete).log (.completed m.handled released)
    | .ok .cancelled => m.log (.cancelled m.handled released m.credit.remaining)
    | .error e => (m.log (.failed e m.handled released)).deliver (.error e)
  { m with stage := .ended verdict, awake := false, link := m.link.detach }

/-- Gives the run up where it stands: its sources are given up, and nothing is delivered or logged. -/
def abandon (m : Merge L u) : Merge L u :=
  if m.stage.isFinal then m
  else
    let m := m.releaseAll
    { m with stage := .abandoned, awake := false, link := m.link.detach }

end Merge
end StreamMerge
