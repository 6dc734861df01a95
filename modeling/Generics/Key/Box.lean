import Generics.Key.Basic

/-! # Values with their keys

A box is trusted to hold a value of its key's type. What is checked is the cast: a box may be seen under
another key that accepts its own. -/

namespace Generics
set_option autoImplicit false

structure Box (α : Type) where
  key : Key
  value : α

namespace Box

variable {α β : Type}

def map (f : α → β) (b : Box α) : Box β := ⟨b.key, f b.value⟩

/-- The value, if `target` accepts the box's key. -/
def valueAs (s : Store) (b : Box α) (target : Key) : Result α := do
  if ← target.accepts s b.key then return b.value
  throw (.castRefused target.text b.key.text)

/-- The value under the key `target`, if that accepts the box's key. -/
def cast (s : Store) (b : Box α) (target : Key) : Result (Box α) := do
  return ⟨target, ← b.valueAs s target⟩

/-- Like `cast`, and gives the box back with the fault. -/
def tryCast (s : Store) (b : Box α) (target : Key) : Except (Box α × Fault) (Box α) :=
  match b.valueAs s target with
  | .ok value => .ok ⟨target, value⟩
  | .error fault => .error (b, fault)

end Box

/-- A value whose type is known at run time only. -/
inductive Payload
  | int (n : Int)
  | text (t : String)
deriving DecidableEq, Repr

namespace Payload

def int? : Payload → Option Int
  | .int n => some n
  | .text _ => none

def text? : Payload → Option String
  | .int _ => none
  | .text t => some t

end Payload

/-- A box around a value of any type. -/
abbrev AnyBox := Box Payload

end Generics
