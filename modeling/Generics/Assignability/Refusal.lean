import Generics.Assignability.Rules

/-! # Why a type is refused -/

namespace Generics
set_option autoImplicit false

/-- The reason for which one type does not pass for another, with the texts of both. -/
inductive Refusal
  /-- Its class is not below the required one. -/
  | notSubclass (required actual : String)
  /-- Seen as the required class it leaves its arguments open. -/
  | openArguments (required actual : String)
  /-- The argument at this position does not fit, the texts being those of the arguments. -/
  | argument (index : Nat) (required actual : String)
  /-- A placeholder does not fit, or the owners do not. -/
  | incompatible (required actual : String)
deriving DecidableEq, Repr

namespace Store

variable {m : Type → Type} [Monad m] [MonadExcept Fault m]

/-- The first reason for which `source` may not stand where `target` is required, nothing if it may. -/
def explain (s : Store) (q : Questions m) (target source : Descriptor) : m (Option Refusal) := do
  if ← q.assignable target source then return none
  match target.raw?, source.raw? with
  | some above, some below =>
    unless ← ofExcept (s.isSubclass below above) do
      return some (.notSubclass (s.text target) (s.text source))
    match ← ofExcept (s.viewAs source above) with
    | none => return some (.openArguments (s.text target) (s.text source))
    | some (_, args) =>
      match ← s.firstMisfit? q above target.args args with
      | some ((required, actual), index) =>
        return some (.argument index (s.text required) (s.text actual))
      | none => return some (.incompatible (s.text target) (s.text source))
  | _, _ => return some (.incompatible (s.text target) (s.text source))

end Store

end Generics
