/-! # Who a type is, and who declares a variable

Classes are known by number, type variables by the declaration that introduces them and their name. Two
variables of one name in two declarations are different variables; their bounds are no part of what they
are, which keeps a bound that mentions its own variable finite. -/

namespace Generics
set_option autoImplicit false

/-- The number of a class or interface. Numbers mean something only in the store that gave them out. -/
structure ClassId where
  num : UInt32
deriving DecidableEq, Repr

namespace ClassId

def null : ClassId := ⟨0⟩

def isValid (c : ClassId) : Bool := c.num != 0

end ClassId

/-- The declaration that introduces a type variable. -/
inductive Scope
  | ofClass (cls : ClassId)
  | ofMethod (cls : ClassId) (method : String)
deriving DecidableEq, Repr

/-- The class that declares the variable, itself or through one of its methods. -/
def Scope.cls : Scope → ClassId
  | .ofClass cls => cls
  | .ofMethod cls _ => cls

structure TypeVar where
  scope : Scope
  name : String
deriving DecidableEq, Repr

end Generics
