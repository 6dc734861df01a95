import Generics.Store.Arity
import Generics.Descriptor.Substitution

/-! # The bindings that a descriptor fixes

`C<A, B>` binds the parameters of `C` to `A` and `B`, and its owner binds those of its own class, in preference.
A class on its own and a placeholder bind nothing. -/

namespace Generics
set_option autoImplicit false

namespace Store

mutual

/-- Adds to `σ` what a descriptor binds. -/
def bindingsFrom (s : Store) (σ : Substitution) : Descriptor → Result Substitution
  | .applied owner c args => do
    let decl ← s.require c
    if decl.arity ≠ args.length then
      throw (.invalidDescriptor (s.text (.applied owner c args)) (.argumentCount decl.arity args.length))
    s.bindingsFromOwner
      (σ.insertAll ((decl.params.map fun p => TypeVar.mk (.ofClass c) p.name).zip args)) owner
  | _ => return σ
termination_by structural d => d

def bindingsFromOwner (s : Store) (σ : Substitution) : Option Descriptor → Result Substitution
  | none => return σ
  | some d => s.bindingsFrom σ d
termination_by structural owner => owner

end

def bindingsOf (s : Store) (d : Descriptor) : Result Substitution := s.bindingsFrom .empty d

end Store

end Generics
