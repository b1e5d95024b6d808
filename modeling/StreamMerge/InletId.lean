/-!
# Inlet numbers

The inputs of a merge are numbered from 0 in the order in which they were connected.
-/
namespace StreamMerge

/-- The number of an input. -/
abbrev InletId := Nat

namespace InletId

/-- The name under which messages speak of an input. -/
def label (p : InletId) : String := s!"in{p}"

/-- The diagnostic form of an inlet number. -/
def inspect (p : InletId) : String := s!"PortId({p})"

end InletId
end StreamMerge
