/-! # How far a walk may go

Every walk has a profile: how deep it may nest, how many steps it may take, and what it is called in the fault
that reports a walk gone too far. -/

namespace Generics
set_option autoImplicit false

def maxActualizationDepth : Nat := 64

def maxAssignabilityDepth : Nat := 128

def maxHierarchyDepth : Nat := 256

def maxHierarchyVisits : Nat := 10000

/-- The largest value of a step counter, which stays there once it is reached. -/
def maxCount : Nat := 4294967295

inductive Activity
  | actualization
  | assignabilityCheck
  | hierarchyWalk
  | guardedComputation
deriving DecidableEq, Repr

def Activity.text : Activity → String
  | .actualization => "actualization"
  | .assignabilityCheck => "assignability check"
  | .hierarchyWalk => "hierarchy walk"
  | .guardedComputation => "guarded computation"

/-- The limits of a walk. -/
inductive Profile
  | actualization
  | assignability
  | hierarchyWalk
  | custom (depth steps : Nat)
deriving DecidableEq, Repr

namespace Profile

def maxDepth : Profile → Nat
  | .actualization => maxActualizationDepth
  | .assignability => maxAssignabilityDepth
  | .hierarchyWalk => maxHierarchyDepth
  | .custom depth _ => depth

def maxSteps : Profile → Nat
  | .actualization => maxCount
  | .assignability => maxCount
  | .hierarchyWalk => maxHierarchyVisits
  | .custom _ steps => steps

def activity : Profile → Activity
  | .actualization => .actualization
  | .assignability => .assignabilityCheck
  | .hierarchyWalk => .hierarchyWalk
  | .custom _ _ => .guardedComputation

end Profile

end Generics
