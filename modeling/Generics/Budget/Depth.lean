import Generics.Budget.Profile

/-! # A counter of nesting depth -/

namespace Generics
set_option autoImplicit false

/-- How deep a computation is, how deep it may go, and whether it ever tried to go deeper. -/
structure DepthCounter where
  depth : Nat
  maxDepth : Nat
  exceeded : Bool
deriving DecidableEq, Repr

namespace DepthCounter

def new (maxDepth : Nat) : DepthCounter := ⟨0, maxDepth, false⟩

def ofProfile (p : Profile) : DepthCounter := new p.maxDepth

/-- One level down, if there is one left; a refusal is remembered and changes nothing else. -/
def enter (c : DepthCounter) : Bool × DepthCounter :=
  if c.maxDepth ≤ c.depth then (false, { c with exceeded := true })
  else (true, { c with depth := c.depth + 1 })

def leave (c : DepthCounter) : DepthCounter := { c with depth := c.depth - 1 }

end DepthCounter

end Generics
