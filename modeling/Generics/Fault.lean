import Generics.Identity
import Generics.Budget.Profile

/-! # Faults

What can go wrong, with the texts of the descriptors concerned. `Fault.message` has the wording. -/

namespace Generics
set_option autoImplicit false

/-- What is wrong with a descriptor. -/
inductive Defect
  /-- A variable or wildcard stands where a class is needed. -/
  | placeholder
  /-- A class in it does not take that many arguments. -/
  | arity (name : String) (declared found : Nat)
  /-- Its own class does not take that many arguments. -/
  | argumentCount (declared found : Nat)
  /-- The view of another descriptor through its class has another number of arguments. -/
  | viewCount (expected found : Nat)
  /-- A type variable occurs in what has to be resolved. -/
  | unresolved (name : String)
  /-- A method returns a wildcard that nothing bounds from above. -/
  | unboundedReturn
deriving DecidableEq, Repr

def Defect.text : Defect → String
  | .placeholder => "placeholder has no nominal identity"
  | .arity name declared found =>
    s!"`{name}` declares {declared} type parameter(s), found {found} argument(s)"
  | .argumentCount declared found => s!"expected {declared} type argument(s), found {found}"
  | .viewCount expected found => s!"argument count {expected} does not match {found}"
  | .unresolved name => s!"unresolved type variable `{name}`"
  | .unboundedReturn => "wildcard return type has no upper bound"

/-- A reason for which an operation has no answer. -/
inductive Fault
  /-- The descriptor is malformed. -/
  | invalidDescriptor (descriptor : String) (defect : Defect)
  /-- The queue of bindings was empty when this placeholder came up. -/
  | bindingExhausted (placeholder : String) (consumed : Nat)
  /-- The queue of bindings was not empty at the end. -/
  | excessBindings (template : String) (remaining : Nat)
  /-- What was to replace the placeholder is outside one of its bounds. -/
  | boundViolation (placeholder bound candidate : String)
  /-- The class is not above the descriptor. -/
  | notASupertype (descriptor ancestor : String)
  /-- A value of the one type does not pass as the other. -/
  | castRefused (required actual : String)
  /-- The declaration leaves open what a token of the base class stands for. -/
  | missingTypeArgument (declaration base : String)
  /-- No class has this number. -/
  | unknownClass (cls : ClassId)
  /-- A method was given the wrong number of arguments. -/
  | arityMismatch (signature : String) (expected actual : Nat)
  /-- A walk went too far. -/
  | depthExceeded (activity : Activity) (limit : Nat)
  /-- A tag is that of another type. -/
  | tagMismatch (expected recorded : String)
deriving DecidableEq, Repr

/-- An answer or a fault. -/
abbrev Result := Except Fault

namespace Fault

def message : Fault → String
  | .invalidDescriptor descriptor defect => "invalid descriptor `" ++ descriptor ++ "`: " ++ defect.text
  | .bindingExhausted placeholder consumed =>
    s!"ran out of bindings at `{placeholder}` after consuming {consumed}"
  | .excessBindings template remaining =>
    s!"{remaining} binding(s) left unconsumed after actualizing `{template}`"
  | .boundViolation placeholder bound candidate =>
    s!"`{candidate}` does not satisfy bound `{bound}` of `{placeholder}`"
  | .notASupertype descriptor ancestor => s!"`{ancestor}` is not a supertype of `{descriptor}`"
  | .castRefused required actual => s!"cannot cast `{actual}` to `{required}`"
  | .missingTypeArgument declaration base => s!"`{declaration}` does not fix a type argument of `{base}`"
  | .unknownClass cls => s!"no declaration registered for definition #{cls.num}"
  | .arityMismatch signature expected actual =>
    s!"`{signature}` expects {expected} argument(s), got {actual}"
  | .depthExceeded activity limit => s!"{activity.text} exceeded the depth limit of {limit}"
  | .tagMismatch expected recorded => s!"stream tag mismatch: expected `{expected}`, recorded `{recorded}`"

/-- Whether the fault says that two well-formed types do not go together. -/
def isMismatch : Fault → Bool
  | .boundViolation _ _ _ => true
  | .castRefused _ _ => true
  | .tagMismatch _ _ => true
  | _ => false

end Fault

/-- The fault of a walk that nests too deep for its profile. -/
def Profile.tooDeep (p : Profile) : Fault := .depthExceeded p.activity p.maxDepth

end Generics
