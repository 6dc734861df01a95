import Generics.Budget.Depth
import Generics.Descriptor.Substitution
import Generics.Fault

/-! # Going through a descriptor to fill its placeholders

What becomes of a placeholder is up to a source. The traversal does not build again what stays as it is: it answers
with nothing for a part in which nothing was filled, a list is copied only once an item of it has changed, and an
application or a wildcard is put together from the parts that are new and the old ones. Each part counts as one level
below the whole. -/

namespace Generics
set_option autoImplicit false

/-- What becomes of placeholders. -/
structure Source (m : Type → Type) where
  /-- What takes the place of a variable, nothing if it stays. -/
  var : TypeVar → m (Option Descriptor)
  /-- What takes the place of a wildcard. Without it wildcards stay, and their bounds are gone through. -/
  wildcard : Option (Wildcard → m Descriptor)

namespace Descriptor

variable {m : Type → Type} [Monad m] [MonadExceptOf Fault m]

/-- Runs `body` one level down. -/
def oneDown {α : Type} (body : StateT DepthCounter m α) : StateT DepthCounter m α := do
  let (entered, counter) := (← get).enter
  set counter
  unless entered do throw Profile.actualization.tooDeep
  let out ← body
  modify DepthCounter.leave
  return out

mutual

/-- The descriptor with its placeholders filled, nothing if that is the descriptor itself. -/
def visit (src : Source m) : Descriptor → StateT DepthCounter m (Option Descriptor)
  | .bare _ => oneDown (return none)
  | .applied owner c args => oneDown do
    let owner' ← visitOwner src owner
    let args' ← visitRest src [] none args
    if owner'.isNone && args'.isNone then return none
    return some (.applied (owner'.or owner) c (args'.getD args))
  | .var v => oneDown (src.var v)
  | .wildcard lower upper => oneDown do
    match src.wildcard with
    | some fill => return some (← fill ⟨lower, upper⟩)
    | none =>
      let lower' ← visitRest src [] none lower
      let upper' ← visitRest src [] none upper
      if lower'.isNone && upper'.isNone then return none
      return some (.wildcard (lower'.getD lower) (upper'.getD upper))
termination_by structural d => d

def visitOwner (src : Source m) : Option Descriptor → StateT DepthCounter m (Option Descriptor)
  | none => return none
  | some d => visit src d
termination_by structural owner => owner

/-- Goes through the items of a list that come after those of `before`, of which there is a copy as soon as one has
changed. -/
def visitRest (src : Source m) (before : List Descriptor) (rebuilt : Option (List Descriptor)) :
    List Descriptor → StateT DepthCounter m (Option (List Descriptor))
  | [] => return rebuilt
  | d :: ds => do
    match ← visit src d with
    | some new => visitRest src (before ++ [d]) (some (rebuilt.getD before ++ [new])) ds
    | none => visitRest src (before ++ [d]) (rebuilt.map (· ++ [d])) ds
termination_by structural ds => ds

end

/-- The descriptor with its placeholders filled. -/
def filled (src : Source m) (d : Descriptor) : m Descriptor := do
  let out ← (visit src d).run' (.ofProfile .actualization)
  return out.getD d

end Descriptor

/-- What a substitution binds takes the place of variables, once it is checked, and wildcards stay. -/
def Source.ofMap (σ : Substitution) (check : TypeVar → Descriptor → Result Unit) : Source Result where
  var v :=
    match σ.get? v with
    | none => return none
    | some candidate => do
      check v candidate
      return some candidate
  wildcard := none

/-- Replaces the bound variables of a declared descriptor without looking at their bounds. Where nothing is
bound the descriptor is not looked at either, so that its depth does not matter. -/
def Substitution.apply (σ : Substitution) (d : Descriptor) : Result Descriptor :=
  if σ.isEmpty then .ok d
  else d.filled (.ofMap σ fun _ _ => return ())

end Generics
