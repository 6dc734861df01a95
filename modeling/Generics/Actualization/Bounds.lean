import Generics.Assignability.Check

/-! # Keeping to declared bounds

What is to take the place of a type variable has to fit each of the variable's bounds. The bound is first
rewritten with what is known of other variables and with the candidate itself, so that
`T extends Comparable<? super T>` asks a candidate `C` for `Comparable<? super C>`. A bound that still mentions
variables is left for later.

A wildcard narrows the bound instead of replacing the variable: it only has to leave room under it, and a bound
that mentions the variable itself is left for later. -/

namespace Generics.Store
set_option autoImplicit false

/-- Whether a candidate fits one bound in which nothing is left open. -/
def fitsBound (s : Store) (candidate bound : Descriptor) : Result Bool :=
  match candidate with
  | .wildcard lower upper => s.leavesRoom ⟨lower, upper⟩ bound
  | _ => s.isAssignable bound candidate

/-- What is known while the bounds of `v` are checked. -/
def boundScope (v : TypeVar) (candidate : Descriptor) (known : Substitution) : Substitution :=
  match candidate with
  | .wildcard _ _ => known
  | _ => known.insert v candidate

/-- Checks that a candidate fits all bounds of the variable it is to replace. -/
def checkBounds (s : Store) (v : TypeVar) (candidate : Descriptor) (known : Substitution) : Result Unit :=
  (s.boundsOf v).forM fun declared => do
    let bound ← (boundScope v candidate known).apply declared
    if bound.hasVars then return
    unless ← s.fitsBound candidate bound do
      throw (.boundViolation v.name (s.text bound) (s.text candidate))

end Generics.Store
