import Generics.Budget.Profile

/-! # A guard against cycles, depth and length

A guard keeps the keys being visited, how deep the visits nest and how many were tried. A visit is refused
when there were too many, when it would be too deep, or when its key is being visited already, in this
order. -/

namespace Generics
set_option autoImplicit false

inductive Visit
  | entered
  | cycle
  | tooDeep
  | tooMany
deriving DecidableEq, Repr

def Visit.isEntered : Visit → Bool
  | .entered => true
  | _ => false

def Visit.isExceeded : Visit → Bool
  | .tooDeep => true
  | .tooMany => true
  | _ => false

/-- The visits under way, those tried so far, and the limits on both. -/
structure Guard (α : Type) where
  visiting : List α
  depth : Nat
  steps : Nat
  maxDepth : Nat
  maxSteps : Nat
  exceeded : Bool
deriving Repr

namespace Guard

variable {α : Type}

def new (maxDepth maxSteps : Nat) : Guard α := ⟨[], 0, 0, maxDepth, maxSteps, false⟩

def ofProfile (p : Profile) : Guard α := new p.maxDepth p.maxSteps

/-- Tries to visit a key. The attempt counts even if it is refused. -/
def enter [DecidableEq α] (g : Guard α) (key : α) : Visit × Guard α :=
  let g := { g with steps := min (g.steps + 1) maxCount }
  if g.maxSteps < g.steps then (.tooMany, { g with exceeded := true })
  else if g.maxDepth ≤ g.depth then (.tooDeep, { g with exceeded := true })
  else if key ∈ g.visiting then (.cycle, g)
  else (.entered, { g with visiting := key :: g.visiting, depth := g.depth + 1 })

def leave [DecidableEq α] (g : Guard α) (key : α) : Guard α :=
  { g with visiting := g.visiting.erase key, depth := g.depth - 1 }

end Guard

end Generics
