import Generics.Actualization.Basic
import Generics.Descriptor.Comparison

/-! # Keys

A key is a descriptor that was checked once: nominal, with declared classes and the right numbers of
arguments, and, unless it is a template, without type variables. It carries its class and its text. Two keys
are equal when their descriptors are the same. -/

namespace Generics
set_option autoImplicit false

/-- A checked descriptor with its class, its text, and whether it mentions type variables. -/
structure Key where
  descriptor : Descriptor
  raw : ClassId
  text : String
  isPartial : Bool
deriving Repr

namespace Key

instance : BEq Key := ⟨fun a b => a.descriptor == b.descriptor⟩

theorem beq_eq (a b : Key) : (a == b) = (a.descriptor == b.descriptor) := rfl

def args (k : Key) : List Descriptor := k.descriptor.args

def debugText (k : Key) : String := s!"Key({k.text})"

/-! ## Making keys -/

def checkResolved (s : Store) (d : Descriptor) : Result Unit :=
  match d.findVar? fun _ => true with
  | none => return
  | some v => throw (.invalidDescriptor (s.text d) (.unresolved v.name))

/-- Checks a descriptor and makes a key of it. Type variables are let through on demand. -/
def freeze (s : Store) (d : Descriptor) (allowVars : Bool) : Result Key := do
  let raw ← s.rawOf d
  s.checkArity d
  unless allowVars do checkResolved s d
  return ⟨d, raw, s.text d, allowVars && d.hasVars⟩

def of (s : Store) (d : Descriptor) : Result Key := freeze s d false

def template (s : Store) (d : Descriptor) : Result Key := freeze s d true

def bare (s : Store) (c : ClassId) : Result Key := of s (.bare c)

/-- The key of a class with arguments, which are checked against the declared bounds. -/
def generic (s : Store) (c : ClassId) (args : List Descriptor) : Result Key := do
  let template ← s.template c
  of s (← s.actualize template (.queue args))

/-! ## From key to key -/

def bindings (s : Store) (k : Key) : Result Bindings := .map <$> s.bindingsOf k.descriptor

/-- The key with bindings put in; nothing may be left open. -/
def actualize (s : Store) (k : Key) (b : Bindings) : Result Key := do
  of s (← s.actualize k.descriptor b)

def erase (s : Store) (k : Key) : Result Key :=
  match k.descriptor with
  | .bare _ => .ok k
  | _ => bare s k.raw

/-- The key seen as a class above it. -/
def upcast (s : Store) (k : Key) (ancestor : ClassId) : Result Key := do
  let _ ← s.require ancestor
  match ← s.asSupertype k.descriptor ancestor with
  | none => throw (.notASupertype k.text (s.className ancestor))
  | some d => if d == k.descriptor then return k else freeze s d k.isPartial

/-- Whether a value of the key `other` may stand where `k` is required. -/
def accepts (s : Store) (k other : Key) : Result Bool :=
  if k == other then .ok true else s.isAssignable k.descriptor other.descriptor

end Key

end Generics
