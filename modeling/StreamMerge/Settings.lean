/-!
# Settings of a merge

What can be set for a merge apart from its strategy and its inputs.
-/
namespace StreamMerge

/-- What can be set for a merge. -/
structure Settings where
  /-- The name of the merge in the log; without one it goes by the name of its strategy. -/
  name : Option String
  /-- Whether every transition is logged. -/
  tracing : Bool
  deriving DecidableEq, Repr

/-- No name of its own, and transitions are not logged. -/
def Settings.standard : Settings := ⟨none, false⟩

end StreamMerge
