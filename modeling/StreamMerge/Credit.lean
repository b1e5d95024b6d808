/-!
# Credit

The credit that a consumer has granted and the merge has not used yet: a 64-bit counter that stops at its
largest value instead of overflowing, and at zero instead of going negative.
-/
namespace StreamMerge

/-- Unused credit. -/
structure Credit where
  remaining : Nat
  deriving DecidableEq

namespace Credit

/-- The largest amount of credit that is kept. -/
def limit : Nat := UInt64.size - 1

/-- No credit. -/
def none : Credit := ⟨0⟩

/-- At least one more element may be delivered. -/
def isPositive (d : Credit) : Bool := 0 < d.remaining

/-- Adds `n` units of credit; what exceeds the limit is lost. -/
def grant (d : Credit) (n : Nat) : Credit := ⟨min (d.remaining + n) limit⟩

/-- Uses one unit of credit; no credit stays no credit. -/
def consume (d : Credit) : Credit := ⟨d.remaining - 1⟩

/-- The diagnostic form of a credit. -/
def inspect (d : Credit) : String := s!"Demand({d.remaining})"

@[simp] theorem remaining_grant (d : Credit) (n : Nat) :
    (d.grant n).remaining = min (d.remaining + n) limit := rfl

@[simp] theorem remaining_consume (d : Credit) : d.consume.remaining = d.remaining - 1 := rfl

@[simp] theorem isPositive_iff (d : Credit) : d.isPositive = true ↔ 0 < d.remaining := by
  simp [isPositive]

end Credit
end StreamMerge
