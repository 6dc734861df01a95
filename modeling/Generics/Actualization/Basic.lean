import Generics.Actualization.Bounds
import Generics.Actualization.Visit

/-! # Putting types in the place of placeholders

There are two ways to say what goes where.

* A *map* binds variables by name. All variables it binds are replaced; the others and the wildcards stay.
* A *queue* binds placeholders by position, owner before arguments, from left to right. A variable takes an item
  at its first occurrence and has it ever after, each wildcard takes one of its own, and in the end no item
  may be left.

Both check what they put in: a variable's against the declared bounds of the variable, a wildcard's against
the wildcard. -/

namespace Generics
set_option autoImplicit false

/-- What goes in the place of placeholders. -/
inductive Bindings
  | map (σ : Substitution)
  | queue (items : List Descriptor)
deriving Repr

namespace Bindings

def isQueue : Bindings → Bool
  | .map _ => false
  | .queue _ => true

def size : Bindings → Nat
  | .map σ => σ.size
  | .queue items => items.length

/-- Binds a variable in a map; a queue refuses. -/
def insert (b : Bindings) (v : TypeVar) (d : Descriptor) : Bool × Bindings :=
  match b with
  | .map σ => (true, .map (σ.insert v d))
  | .queue items => (false, .queue items)

/-- Adds an item at the end of a queue; a map refuses. -/
def push (b : Bindings) (d : Descriptor) : Bool × Bindings :=
  match b with
  | .map σ => (false, .map σ)
  | .queue items => (true, .queue (items ++ [d]))

end Bindings

/-- A queue in use: the items left, how many were taken, and what variables have taken. -/
structure Supply where
  items : List Descriptor
  taken : Nat
  bound : Substitution
deriving Repr

namespace Store

/-! ## By name -/

/-- What a map puts in for variables, checked against their bounds. -/
def byName (s : Store) (σ : Substitution) : Source Result := .ofMap σ fun v candidate => s.checkBounds v candidate σ

/-! ## By position -/

/-- The next item, for this placeholder. -/
def takeItem (s : Store) (placeholder : Descriptor) : StateT Supply Result Descriptor := do
  let supply ← get
  match supply.items with
  | [] => throw (.bindingExhausted (s.text placeholder) supply.taken)
  | d :: items =>
    set { supply with items, taken := supply.taken + 1 }
    return d

/-- Checks an item that is to replace a wildcard. Bounds that mention open variables are not checked. -/
def checkWildcard (s : Store) (w : Wildcard) (candidate : Descriptor) (known : Substitution) :
    Result Unit := do
  let resolved ← known.apply w.toDescriptor
  match resolved with
  | .wildcard lower upper =>
    if resolved.hasVars then return
    unless ← s.admits ⟨lower, upper⟩ candidate do
      throw (.boundViolation (s.text w.toDescriptor) (s.text resolved) (s.text candidate))
  | _ => return

/-- The item that a variable has taken before, or the next one. -/
def takeForVar (s : Store) (v : TypeVar) : StateT Supply Result Descriptor := do
  match (← get).bound.get? v with
  | some d => return d
  | none =>
    let candidate ← s.takeItem (.var v)
    s.checkBounds v candidate (← get).bound
    modify fun supply => { supply with bound := supply.bound.insert v candidate }
    return candidate

def takeForWildcard (s : Store) (w : Wildcard) : StateT Supply Result Descriptor := do
  let candidate ← s.takeItem w.toDescriptor
  s.checkWildcard w candidate (← get).bound
  return candidate

/-- What a queue puts in for variables and wildcards. -/
def byPosition (s : Store) : Source (StateT Supply Result) where
  var v := some <$> s.takeForVar v
  wildcard := some s.takeForWildcard

/-! ## Either way -/

/-- Puts the bindings in the place of the template's placeholders. -/
def actualize (s : Store) (template : Descriptor) : Bindings → Result Descriptor
  | .map σ => template.filled (s.byName σ)
  | .queue items => do
    let (d, supply) ← (template.filled s.byPosition).run ⟨items, 0, .empty⟩
    unless supply.items.isEmpty do
      throw (.excessBindings (s.text template) supply.items.length)
    return d

end Store

end Generics
