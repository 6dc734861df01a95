import Generics.Actualization.Visit
import Generics.Budget.Guard
import Generics.Store.Bindings

/-! # A type seen as one of its supertypes

`Store.asSupertype` finds the shape that a type has as the given class: `IntList` as `Sequence` is
`Sequence<Integer>`. It walks up the declared supertypes depth first, putting into each what the type below
binds, and takes the first that leads to the class. A class on its own that has parameters leaves its
arguments open, so its supertypes are seen on their own too.

A guard keeps the classes that the walk is below, so that it turns back on a cycle, and bounds how deep it goes and
how many classes it enters. -/

namespace Generics
set_option autoImplicit false

/-- A declared supertype as it is seen from below. Seen from a class that leaves its arguments open it leaves
its own open too, and a placeholder is nothing. -/
def seenFrom (view : Option Substitution) (supertype : Descriptor) : Result (Option Descriptor) :=
  match view with
  | some σ => some <$> σ.apply supertype
  | none => .ok supertype.erase?

/-- A computation under a guard, which survives a fault. -/
abbrev WalkM := ExceptT Fault (StateM (Guard ClassId))

/-- Runs `body` inside the class, and leaves the class on success and on failure. Nothing is found in a class that
the walk is inside already. -/
def inside {α : Type} (c : ClassId) (body : WalkM (Option α)) : WalkM (Option α) := ExceptT.mk fun guard =>
  match guard.enter c with
  | (.entered, guard) =>
    let (found, guard) := body.run guard
    (found, guard.leave c)
  | (.cycle, guard) => (.ok none, guard)
  | (.tooDeep, guard) => (.error Profile.hierarchyWalk.tooDeep, guard)
  | (.tooMany, guard) => (.error Profile.hierarchyWalk.tooDeep, guard)

namespace Store

/-- What a nominal type binds in the supertypes of its class, nothing at all if it leaves its arguments
open. -/
def viewOf (s : Store) (d : Descriptor) (decl : ClassDecl) : Result (Option Substitution) :=
  match d with
  | .bare _ => if decl.params.isEmpty then some <$> s.bindingsOf d else .ok none
  | _ => some <$> s.bindingsOf d

/-- Walks up from `d` to `target`, through so many classes at most. -/
def climb (s : Store) (target : ClassId) : Nat → Descriptor → WalkM (Option Descriptor)
  | levels, d => do
    let c ← s.rawOf d
    if c = target then return some d
    inside c do
      match levels with
      | 0 => throw Profile.hierarchyWalk.tooDeep
      | levels + 1 =>
        let decl ← s.require c
        let view ← s.viewOf d decl
        decl.supertypes.findSomeM? fun supertype => do
          match ← seenFrom view supertype with
          | some above => s.climb target levels above
          | none => return none

/-- The shape of `d` as the class `target`, if that is above it. The guard refuses a class before the levels run
out. -/
def asSupertype (s : Store) (d : Descriptor) (target : ClassId) : Result (Option Descriptor) :=
  ((s.climb target maxHierarchyDepth d).run (.ofProfile .hierarchyWalk)).1

end Store

end Generics
