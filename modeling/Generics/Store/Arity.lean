import Generics.Fault
import Generics.Store.Text

/-! # Descriptors that fit their declarations

`Store.require` and `Store.rawOf` are how the rest of the library asks for a declaration and for a class.
`Store.checkArity` accepts a descriptor when every class in it is declared and takes as many arguments as it
is given; a class on its own may leave its arguments out. -/

namespace Generics.Store
set_option autoImplicit false

/-- The declaration of a class, which has to be there. -/
def require (s : Store) (c : ClassId) : Result ClassDecl :=
  match s.get? c with
  | some decl => .ok decl
  | none => .error (.unknownClass c)

/-- The class of a descriptor, which has to be nominal. -/
def rawOf (s : Store) (d : Descriptor) : Result ClassId :=
  match d.raw? with
  | some c => .ok c
  | none => .error (.invalidDescriptor (s.text d) .placeholder)

mutual

/-- Checks the part `d` of the descriptor `whole`, which is the one that a fault names. -/
def checkArityIn (s : Store) (whole : Descriptor) : Descriptor → Result Unit
  | .bare c => do
    let _ ← s.require c
  | .applied owner c args => do
    let decl ← s.require c
    if decl.arity ≠ args.length then
      throw (.invalidDescriptor (s.text whole) (.arity decl.name decl.arity args.length))
    s.checkOwnerArity whole owner
    s.checkListArity whole args
  | .var _ => return
  | .wildcard lower upper => do
    s.checkListArity whole lower
    s.checkListArity whole upper
termination_by structural d => d

def checkOwnerArity (s : Store) (whole : Descriptor) : Option Descriptor → Result Unit
  | none => return
  | some d => s.checkArityIn whole d
termination_by structural owner => owner

def checkListArity (s : Store) (whole : Descriptor) : List Descriptor → Result Unit
  | [] => return
  | d :: ds => do
    s.checkArityIn whole d
    s.checkListArity whole ds
termination_by structural ds => ds

end

/-- Checks that every class in the descriptor is declared and has its number of arguments. -/
def checkArity (s : Store) (d : Descriptor) : Result Unit := s.checkArityIn d d

/-- A class applied to its own parameters, or on its own if it has none. -/
def template (s : Store) (c : ClassId) : Result Descriptor := do
  let decl ← s.require c
  if decl.params.isEmpty then return .bare c
  return .generic c (decl.params.map fun p => .var ⟨.ofClass c, p.name⟩)

end Generics.Store
