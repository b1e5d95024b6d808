import StreamMerge.Strategy

/-!
# Strategies given by rules

A strategy on texts that is written down as data: for every state the inlets it reads from and, for every inlet,
what to do with an element; for every end policy what to do when an inlet ends or fails.
-/
namespace StreamMerge

/-- One instruction of a rule. -/
inductive Instruction where
  /-- Emit the element. -/
  | emitElement
  /-- Emit the element behind the name of its inlet. -/
  | emitLabelled
  /-- Emit the number of inputs. -/
  | emitCount
  /-- Emit a fixed text. -/
  | emitText (text : String)
  /-- End the merge normally. -/
  | complete
  /-- End the merge with the failure that is being handled; otherwise do nothing. -/
  | failWithCause
  /-- End the merge with this error. -/
  | fail (e : MergeError)
  /-- Release an inlet. -/
  | release (inlet : InletId)
  /-- Release the inlet the event came from. -/
  | releaseSelf
  /-- Follow another end policy. -/
  | follow (policy : EndPolicy Nat)
  /-- Go to another state. -/
  | goto (state : Nat)
  /-- Do the one or the other depending on whether the element is `text`. -/
  | ifElement (text : String) (same different : List Instruction)

/-- The event to which a rule is applied. -/
structure Occasion where
  inletCount : Nat
  inlet : InletId
  /-- The element, or nothing for an end or a failure. -/
  element : String
  /-- The failure, if that is the event. -/
  cause : Option Cause

mutual

/-- Carries out one instruction after the requests `done` and with `next` as the state to go to. -/
def Instruction.apply (o : Occasion) (done : List (Action String Nat)) (next : Nat) :
    Instruction → List (Action String Nat) × Nat
  | .emitElement => (done ++ [.emit o.element], next)
  | .emitLabelled => (done ++ [.emit s!"{o.inlet.label}={o.element}"], next)
  | .emitCount => (done ++ [.emit (toString o.inletCount)], next)
  | .emitText text => (done ++ [.emit text], next)
  | .complete => (done ++ [.complete], next)
  | .failWithCause => (done ++ (o.cause.map fun c => Action.fail (.sourceFailed c)).toList, next)
  | .fail e => (done ++ [.fail e], next)
  | .release p => (done ++ [.release p], next)
  | .releaseSelf => (done ++ [.release o.inlet], next)
  | .follow policy => (done ++ [.follow policy], next)
  | .goto state => (done, state)
  | .ifElement text same different =>
    if o.element = text then Instruction.applyAll o done next same
    else Instruction.applyAll o done next different

/-- Carries out instructions one after another. -/
def Instruction.applyAll (o : Occasion) (done : List (Action String Nat)) (next : Nat) :
    List Instruction → List (Action String Nat) × Nat
  | [] => (done, next)
  | i :: is =>
    let r := i.apply o done next
    Instruction.applyAll o r.1 r.2 is

end

/-- Instructions by inlet, with those for all other inlets. -/
structure RuleSet where
  byInlet : List (InletId × List Instruction)
  otherwise : List Instruction

/-- The instructions for an event of `p`. -/
def RuleSet.find (r : RuleSet) (p : InletId) : List Instruction :=
  ((r.byInlet.find? (·.1 = p)).map (·.2)).getD r.otherwise

/-- Which handles a rule table declares. -/
inductive HandleRule where
  /-- Those of all inputs in order. -/
  | all
  /-- These. -/
  | listed (inlets : List InletId)
  /-- None: there can be no merge. -/
  | refused (e : MergeError)
  /-- Those of all inputs in order, for so many inputs. -/
  | sequential (expected : Arity)

/-- A strategy as data. -/
structure RuleTable where
  name : String
  start : Nat
  policy : EndPolicy Nat
  handles : HandleRule
  /-- What each state reads, and its rules for elements. -/
  states : List (Choice × RuleSet)
  /-- For each own end policy, the rules for ends and those for failures. -/
  policies : List (RuleSet × RuleSet)
  /-- Whether ends and failures are governed by `policies`; otherwise an end changes nothing and a failure ends
  the merge. -/
  governsEnds : Bool

namespace RuleTable

/-- The transition of a rule set for an event in `state`. -/
def apply (rules : Option RuleSet) (o : Occasion) (state : Nat) : Transition String Nat Nat Unit :=
  let r := Instruction.applyAll o [] state ((rules.map (·.find o.inlet)).getD [])
  ⟨r.1, r.2, ()⟩

/-- The strategy that a table describes. -/
abbrev strategy (t : RuleTable) : Strategy String String where
  State := Nat
  Key := Nat
  Memory := Unit
  name := t.name
  fresh := ()
  handles _ count :=
    (match t.handles with
      | .all => .ok (List.range count)
      | .listed inlets => .ok inlets
      | .refused e => .error e
      | .sequential expected => sequentialHandles t.name expected count, ())
  start _ := t.start
  policy _ := if t.governsEnds then t.policy else .exhaust
  choice _ state := (t.states[state]?.map (·.1)).getD (.any [])
  onElement _ n state inlet x := apply (t.states[state]?.map (·.2)) ⟨n, inlet, x, none⟩ state
  onEnd _ n key state inlet :=
    if t.governsEnds then apply (t.policies[key]?.map (·.1)) ⟨n, inlet, "", none⟩ state
    else ⟨[], state, ()⟩
  onFailure _ n key state inlet cause :=
    if t.governsEnds then apply (t.policies[key]?.map (·.2)) ⟨n, inlet, "", some cause⟩ state
    else ⟨[.fail (.sourceFailed cause)], state, ()⟩
  showState state := s!"Node({state})"
  showKey key := s!"Rule({key})"

end RuleTable
end StreamMerge
