/-!
# End policies

What the end of one inlet means for the whole merge. Exactly one policy is active at a time; a transition may
replace it, and the replacement counts from the next event on.
-/
namespace StreamMerge

/-- An end policy; `K` names the strategy's own ones. -/
inductive EndPolicy (K : Type) where
  /-- Read on until every inlet has ended; a failure ends the merge with its cause. -/
  | exhaust
  /-- The first end or failure of any inlet ends the merge. -/
  | eager
  /-- The strategy decides. -/
  | custom (key : K)
  deriving DecidableEq, Repr

namespace EndPolicy

variable {K : Type}

/-- The name of a policy in the log. -/
def label : EndPolicy K → String
  | .exhaust => "default"
  | .eager => "eager-close"
  | .custom _ => "custom"

/-- The diagnostic form of a policy, given that of the strategy's own ones. -/
def inspect (key : K → String) : EndPolicy K → String
  | .exhaust => "Default"
  | .eager => "EagerClose"
  | .custom k => s!"Custom({key k})"

end EndPolicy
end StreamMerge
