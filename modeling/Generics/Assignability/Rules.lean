import Generics.Hierarchy.Subclass
import Generics.Hierarchy.Supertype
import Generics.Descriptor.Comparison

/-! # When a value of one type may stand where another is required

* Types that are the same are assignable to each other.
* A wildcard takes what lies within its bounds.
* A variable passes for whatever one of its bounds passes for, and only the variable itself passes for it.
* A wildcard passes for whatever one of its upper bounds passes for.
* A class on its own takes everything below it, whatever the arguments.
* `C<A, B>` takes what is `C<A', B'>` when seen as `C`, if each argument fits: where `A` is a wildcard `A'`
  has to lie within it, and elsewhere `A'` has to be `A`.

A type that does not fit is refused with `false`; faults are for malformed descriptors and for checks that
go too deep. The rules ask questions of their own kind about smaller types, which count as one level deeper.
They are stated for any monad that can fail, and `Questions` stands for the answers. -/

namespace Generics
set_option autoImplicit false

/-- The answers to questions one level down: whether something of the second type may stand where the first is
required, and whether a type lies within a wildcard. -/
structure Questions (m : Type → Type) where
  assignable : Descriptor → Descriptor → m Bool
  contains : Wildcard → Descriptor → m Bool

namespace Store

/-! ## What is implied -/

/-- The upper bounds of a wildcard: the class above all others if it has none of its own. -/
def impliedUpper (s : Store) (upper : List Descriptor) : List Descriptor :=
  if upper.isEmpty then s.root.toList.map .bare else upper

/-- An argument of the class `c`. A wildcard without upper bounds has those of the parameter it fills, as far
as they mention no type variables. -/
def withDeclaredUpper (s : Store) (c : ClassId) (index : Nat) (arg : Descriptor) : Result Descriptor :=
  match arg with
  | .wildcard lower [] => do
    let decl ← s.require c
    let declared := (decl.params[index]?.map (·.bounds)).getD []
    return .wildcard lower (declared.filter (!·.hasVars))
  | _ => return arg

/-- The owner and the arguments of `d` seen as the class `c`, nothing if these are left open. -/
def viewAs (s : Store) (d : Descriptor) (c : ClassId) :
    Result (Option (Option Descriptor × List Descriptor)) := do
  match ← s.asSupertype d c with
  | none => throw (.notASupertype (s.text d) (s.className c))
  | some (.applied owner _ args) => return some (owner, args)
  | some _ => return none

/-! ## The rules -/

variable {m : Type → Type} [Monad m] [MonadExcept Fault m]

/-- Whether `d` lies within the wildcard. Another wildcard does if its own bounds are at least as tight. -/
def wildcardContains (s : Store) (assignable : Descriptor → Descriptor → m Bool) (w : Wildcard)
    (d : Descriptor) : m Bool :=
  match d with
  | .wildcard lower upper => do
    if ← w.upper.allM fun u => (s.impliedUpper upper).anyM fun u' => assignable u u' then
      w.lower.allM fun l => lower.anyM fun l' => assignable l' l
    else return false
  | _ => do
    if ← w.upper.allM fun u => assignable u d then
      w.lower.allM fun l => assignable d l
    else return false

/-- Whether the wildcard and a declared bound leave room for a common type: each upper bound is related to the
declared one, in either direction, and each lower bound is below it. -/
def wildcardWithin (assignable : Descriptor → Descriptor → m Bool) (w : Wildcard)
    (bound : Descriptor) : m Bool := do
  let related (u : Descriptor) : m Bool := do
    if ← assignable bound u then return true else assignable u bound
  if ← w.upper.allM related then
    w.lower.allM fun l => assignable bound l
  else return false

/-- Whether an argument of the class `c` fits the required one. -/
def argumentFits (s : Store) (q : Questions m) (c : ClassId) (index : Nat)
    (required actual : Descriptor) : m Bool :=
  match required with
  | .wildcard lower upper => do
    let actual ← ofExcept (s.withDeclaredUpper c index actual)
    q.contains ⟨lower, upper⟩ actual
  | _ => return required == actual

/-- The first argument that does not fit, with its position. -/
def firstMisfit? (s : Store) (q : Questions m) (c : ClassId) (required actual : List Descriptor) :
    m (Option ((Descriptor × Descriptor) × Nat)) :=
  (required.zip actual).zipIdx.findM? fun ((required, actual), index) => do
    return !(← s.argumentFits q c index required actual)

/-- Whether the owners fit: one that is missing on either side is no obstacle. -/
def ownersFit (q : Questions m) (required actual : Option Descriptor) : m Bool :=
  match required, actual with
  | some required, some actual => q.assignable required actual
  | _, _ => return true

/-- Whether `source` may stand where the application `owner.c<args>` is required. -/
def applicationTakes (s : Store) (q : Questions m) (owner : Option Descriptor) (c : ClassId)
    (args : List Descriptor) (source : Descriptor) : m Bool := do
  let below ← ofExcept (s.rawOf source)
  unless ← ofExcept (s.isSubclass below c) do return false
  match ← ofExcept (s.viewAs source c) with
  | none => return false
  | some (owner', args') =>
    if args.length ≠ args'.length then
      throw (.invalidDescriptor (s.text (.applied owner c args)) (.viewCount args.length args'.length))
    unless ← ownersFit q owner owner' do return false
    return (← s.firstMisfit? q c args args').isNone

/-- Whether a value of type `source` may stand where `target` is required. -/
def takes (s : Store) (q : Questions m) (target source : Descriptor) : m Bool :=
  if target == source then return true
  else match target, source with
  | .wildcard lower upper, _ => s.wildcardContains q.assignable ⟨lower, upper⟩ source
  | _, .var v => (s.boundsOf v).anyM fun bound => q.assignable target bound
  | .var _, _ => return false
  | _, .wildcard _ upper => (s.impliedUpper upper).anyM fun u => q.assignable target u
  | .bare c, _ => do
    let below ← ofExcept (s.rawOf source)
    ofExcept (s.isSubclass below c)
  | .applied owner c args, _ => s.applicationTakes q owner c args source

/-! ## Levels -/

mutual

/-- The question `assignable` with so many levels left; `down` is what a level costs. -/
def assignableWithin (s : Store) (p : Profile) (down : m Bool → m Bool) :
    Nat → Descriptor → Descriptor → m Bool
  | 0, _, _ => throw p.tooDeep
  | levels + 1, target, source =>
    down (s.takes ⟨fun t d => s.assignableWithin p down levels t d,
      fun w d => s.containsWithin p down levels w d⟩ target source)

def containsWithin (s : Store) (p : Profile) (down : m Bool → m Bool) :
    Nat → Wildcard → Descriptor → m Bool
  | 0, _, _ => throw p.tooDeep
  | levels + 1, w, d => down (s.wildcardContains (fun t d => s.assignableWithin p down levels t d) w d)

end

def questions (s : Store) (p : Profile) (down : m Bool → m Bool) (levels : Nat) : Questions m :=
  ⟨s.assignableWithin p down levels, s.containsWithin p down levels⟩

end Store

end Generics
