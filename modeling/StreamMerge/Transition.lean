import StreamMerge.EndPolicy
import StreamMerge.MergeError

/-!
# Transitions

A strategy answers every event with a transition: what it asks the merge to do, in the order asked, and the
state it goes to. `Effects.ofActions` is what the requests amount to together: one element at most, the first
request to end the merge, the last end policy, and each released inlet once.
-/
namespace StreamMerge

/-- One request of a transition. -/
inductive Action (β K : Type) where
  /-- Deliver `y` to the consumer. -/
  | emit (y : β)
  /-- End the merge normally. -/
  | complete
  /-- End the merge with an error. -/
  | fail (e : MergeError)
  /-- Give up the source of `inlet`. -/
  | release (inlet : InletId)
  /-- From the next event on, follow another end policy. -/
  | follow (policy : EndPolicy K)
  deriving DecidableEq, Repr

/-- A transition into a state of `S`, with the memory of `M` that the strategy keeps from now on. -/
structure Transition (β K S M : Type) where
  actions : List (Action β K)
  next : S
  memory : M

/-- How a transition ends the merge. -/
inductive Closing where
  | complete
  | fail (e : MergeError)
  deriving DecidableEq, Repr

/-- What the requests of one transition amount to. -/
structure Effects (β K : Type) where
  /-- The element to deliver: the first one emitted. -/
  emission : Option β
  /-- A second element was emitted, which is against the rules. -/
  emittedTwice : Bool
  /-- How the merge ends, by the first request to end it. -/
  closing : Option Closing
  /-- The policy to follow, by the last request to change it. -/
  policy : Option (EndPolicy K)
  /-- The inlets to release, in the order of the first request for each. -/
  releases : List InletId
  deriving DecidableEq

namespace Effects

variable {β K : Type}

/-- Nothing was requested. -/
def empty : Effects β K := ⟨none, false, none, none, []⟩

/-- Adds one request to what was requested before. -/
def add (fx : Effects β K) : Action β K → Effects β K
  | .emit y =>
    match fx.emission with
    | none => { fx with emission := some y }
    | some _ => { fx with emittedTwice := true }
  | .complete => { fx with closing := fx.closing <|> some .complete }
  | .fail e => { fx with closing := fx.closing <|> some (.fail e) }
  | .release p => if p ∈ fx.releases then fx else { fx with releases := fx.releases ++ [p] }
  | .follow policy => { fx with policy := some policy }

/-- What a list of requests amounts to. -/
def ofActions (actions : List (Action β K)) : Effects β K := actions.foldl add empty

end Effects
end StreamMerge
