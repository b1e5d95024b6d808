import StreamMerge.Merge.Attempt
import StreamMerge.Merge.Dispatch

/-!
# Running a merge

`Merge.step` does one small step of a run. A step takes one signal, or delivers, or chooses the inlets to read,
or makes one attempt on them. `Merge.poll` goes on stepping until the run has to wait: for credit, or for a
source that has nothing yet. A later poll goes on where the run waits.
-/
namespace StreamMerge.Merge

variable {α β : Type} {L : Strategy α β} {u : Source α}

/-- Takes the oldest signal. A request adds credit; a cancellation, or nobody being left who could send a
signal, ends the run. Without a signal it goes on as `quiet`. -/
def hear (m : Merge L u) (quiet : Merge L u → Merge L u) : Merge L u :=
  match m.link.signals with
  | .request n :: rest =>
    { m with credit := m.credit.grant n, link := { m.link with signals := rest } }.note (.took (.request n))
  | .cancel :: rest =>
    ({ m with link := { m.link with signals := rest } }.note (.took .cancel)).finish (.ok .cancelled)
  | [] => if m.link.senders = 0 then m.finish (.ok .cancelled) else quiet m

/-- Delivers what was emitted, for which there is credit. Without a consumer that receives it the run ends. -/
def flush (m : Merge L u) (closing : Bool) : Merge L u :=
  match m.unsent with
  | none => { m with stage := .settling closing }
  | some y =>
    let m := { m with unsent := none, credit := m.credit.consume }
    if m.link.receiving then { m.deliver (.element y) with stage := .settling closing }
    else m.finish (.ok .cancelled)

/-- Asks the strategy which inlets to read, and starts to try them. -/
def choose (m : Merge L u) : Merge L u :=
  let choice := L.choice m.memory m.state
  match choice.check m.inlets.length with
  | some violation => m.finish (.error (.protocol violation))
  | none =>
    match choice.readingOrder m.turn (m.inletIs · (·.isOpen)) with
    | [] =>
      let state := L.showState m.state
      (m.log (.onlyTerminated state m.openInlets)).finish
        (.error (.protocol (.namesOnlyTerminated state m.openInlets)))
    | p :: ps => { m with stage := .attempting choice (p :: ps) }

/-- Does what there now is credit for. -/
def proceed (m : Merge L u) : Aim → Merge L u
  | .read => m.choose
  | .deliver closing => m.flush closing

/-- One attempt on the inlets; without an event the run waits. -/
def read (m : Merge L u) (choice : Choice) (order : List InletId) : Merge L u :=
  match m.attempt order with
  | (none, m) => { m with awake := false }
  | (some (p, a), m) => m.dispatch choice p a

/-- One small step of a run. -/
def step (m : Merge L u) : Merge L u :=
  match m.stage with
  | .unpolled =>
    { (m.log (.opened m.name m.inlets.length)).log (.started m.policy.label) with stage := .settling false }
  | .settling closing =>
    if m.unsent.isSome then { m with stage := .draining (.deliver closing) }
    else if closing || m.openInlets = 0 then m.finish (.ok .completed)
    else { m with stage := .draining .read }
  | .draining aim =>
    m.hear fun m => if m.credit.isPositive then m.proceed aim else { m with stage := .awaiting aim }
  | .awaiting aim =>
    if m.credit.isPositive then m.proceed aim else m.hear fun m => { m with awake := false }
  | .attempting choice order => m.hear fun m => m.read choice order
  | .ended _ | .abandoned => m

/-- Steps as long as there is something to do, at most `fuel` times. -/
def advance : Nat → Merge L u → Merge L u
  | 0, m => m
  | fuel + 1, m => if m.awake then advance fuel m.step else m

/-- One poll of the run, of at most `fuel` steps. -/
def poll (fuel : Nat) (m : Merge L u) : Merge L u :=
  if m.stage.isFinal then m else advance fuel { m with awake := true, link := m.link.heed }

/-- The result of the run, once it has ended. -/
def verdict? (m : Merge L u) : Option Verdict :=
  match m.stage with
  | .ended verdict => some verdict
  | _ => none

end StreamMerge.Merge
