import Generics.Identity

/-! # Descriptors: the shapes of generic types

A descriptor is one of four things:

* `bare c`: a class on its own, `Text`, or `Sequence` with its arguments left out;
* `applied owner c args`: `Owner<..>.C<A, B>`, the owner being there for inner classes only;
* `var v`: a type variable;
* `wildcard lower upper`: `?`, `? extends U`, `? super L`, with lists of bounds that stand for sets.

The first two are *nominal*: they have a class. The last two are placeholders, which have none until
something is put in their place.

Functions that go through a whole descriptor come in threes, for a descriptor, an optional owner and a list;
the lemmas after each give the last two in terms of the first, and `Descriptor.induct` is the matching
induction principle. -/

namespace Generics
set_option autoImplicit false

/-- The shape of a generic type. -/
inductive Descriptor
  | bare (cls : ClassId)
  | applied (owner : Option Descriptor) (cls : ClassId) (args : List Descriptor)
  | var (v : TypeVar)
  | wildcard (lower upper : List Descriptor)
deriving Inhabited, Repr

structure Wildcard where
  lower : List Descriptor
  upper : List Descriptor
deriving Repr

def Wildcard.isUnbounded (w : Wildcard) : Bool := w.lower.isEmpty && w.upper.isEmpty

namespace Descriptor

/-! ## Induction -/

/-- Induction over descriptors: the hypotheses speak of the owner, each argument and each bound. -/
@[elab_as_elim]
theorem induct {P : Descriptor → Prop} (bare : ∀ c, P (.bare c))
    (applied : ∀ owner c args, (∀ o, owner = some o → P o) → (∀ a ∈ args, P a) →
      P (.applied owner c args))
    (var : ∀ v, P (.var v))
    (wildcard : ∀ lower upper, (∀ l ∈ lower, P l) → (∀ u ∈ upper, P u) → P (.wildcard lower upper)) :
    ∀ d, P d :=
  @Descriptor.rec P (fun owner => ∀ o, owner = some o → P o) (fun ds => ∀ d ∈ ds, P d) bare
    (fun owner c args howner hargs => applied owner c args howner hargs) var
    (fun lower upper hl hu => wildcard lower upper hl hu)
    (by simp) (fun _ h => by simpa using h) (by simp) (fun _ _ hd hds => by simpa using ⟨hd, hds⟩)

/-! ## Making descriptors -/

/-- `C<A, B>`. -/
def generic (cls : ClassId) (args : List Descriptor) : Descriptor := .applied none cls args

/-- `? extends U`. -/
def extending (upper : Descriptor) : Descriptor := .wildcard [] [upper]

/-- `? super L`. -/
def superOf (lower : Descriptor) : Descriptor := .wildcard [lower] []

/-- `?`. -/
def unbounded : Descriptor := .wildcard [] []

end Descriptor

def Wildcard.toDescriptor (w : Wildcard) : Descriptor := .wildcard w.lower w.upper

namespace Descriptor

/-! ## Looking at the root -/

/-- The class of a nominal descriptor. -/
def raw? : Descriptor → Option ClassId
  | .bare c => some c
  | .applied _ c _ => some c
  | .var _ => none
  | .wildcard _ _ => none

def args : Descriptor → List Descriptor
  | .applied _ _ args => args
  | _ => []

def owner? : Descriptor → Option Descriptor
  | .applied owner _ _ => owner
  | _ => none

def var? : Descriptor → Option TypeVar
  | .var v => some v
  | _ => none

def wildcard? : Descriptor → Option Wildcard
  | .wildcard lower upper => some ⟨lower, upper⟩
  | _ => none

/-- The class alone, with owner and arguments dropped. -/
def erase? (d : Descriptor) : Option Descriptor := d.raw?.map .bare

/-! ## Type variables -/

mutual

/-- The type variables of a descriptor as they occur: owner before arguments, lower bounds before upper. -/
def vars : Descriptor → List TypeVar
  | .bare _ => []
  | .applied owner _ args => ownerVars owner ++ listVars args
  | .var v => [v]
  | .wildcard lower upper => listVars lower ++ listVars upper
termination_by structural d => d

def ownerVars : Option Descriptor → List TypeVar
  | none => []
  | some d => d.vars
termination_by structural owner => owner

def listVars : List Descriptor → List TypeVar
  | [] => []
  | d :: ds => d.vars ++ listVars ds
termination_by structural ds => ds

end

theorem ownerVars_eq (owner : Option Descriptor) : ownerVars owner = owner.elim [] vars := by
  cases owner <;> rfl

theorem listVars_eq (ds : List Descriptor) : listVars ds = ds.flatMap vars := by
  induction ds with
  | nil => rfl
  | cons d ds ih => simp [listVars, ih]

mutual

/-- The first type variable with the property `p`. Nothing after it is looked at. -/
def findVar? (p : TypeVar → Bool) : Descriptor → Option TypeVar
  | .bare _ => none
  | .applied owner _ args => (ownerFindVar? p owner).or (listFindVar? p args)
  | .var v => if p v then some v else none
  | .wildcard lower upper => (listFindVar? p lower).or (listFindVar? p upper)
termination_by structural d => d

def ownerFindVar? (p : TypeVar → Bool) : Option Descriptor → Option TypeVar
  | none => none
  | some d => d.findVar? p
termination_by structural owner => owner

def listFindVar? (p : TypeVar → Bool) : List Descriptor → Option TypeVar
  | [] => none
  | d :: ds => (d.findVar? p).or (listFindVar? p ds)
termination_by structural ds => ds

end

theorem ownerFindVar?_eq (p : TypeVar → Bool) (owner : Option Descriptor) :
    ownerFindVar? p owner = owner.bind (findVar? p) := by
  cases owner <;> rfl

theorem listFindVar?_eq (p : TypeVar → Bool) (ds : List Descriptor) :
    listFindVar? p ds = ds.findSome? (findVar? p) := by
  induction ds with
  | nil => rfl
  | cons d ds ih => cases h : d.findVar? p <;> simp [listFindVar?, h, ih]

theorem find?_flatMap_vars (p : TypeVar → Bool) {ds : List Descriptor}
    (h : ∀ d ∈ ds, d.findVar? p = d.vars.find? p) :
    ds.findSome? (findVar? p) = (ds.flatMap vars).find? p := by
  induction ds with
  | nil => rfl
  | cons d ds ih =>
    have hd := h d (by simp)
    have hs := ih fun e he => h e (by simp [he])
    cases hv : d.vars.find? p <;> simp [List.find?_append, hd, hs, hv]

theorem findVar?_eq (p : TypeVar → Bool) (d : Descriptor) : d.findVar? p = d.vars.find? p := by
  induction d using Descriptor.induct with
  | bare c => rfl
  | applied owner c args ho ha =>
    have hs := find?_flatMap_vars p ha
    cases owner with
    | none => simp [findVar?, vars, ownerFindVar?_eq, listFindVar?_eq, ownerVars_eq, listVars_eq, hs]
    | some o =>
      simp [findVar?, vars, ownerFindVar?_eq, listFindVar?_eq, ownerVars_eq, listVars_eq, hs, ho o rfl,
        List.find?_append]
  | var v => cases h : p v <;> simp [findVar?, vars, h]
  | wildcard lower upper hl hu =>
    simp [findVar?, vars, listFindVar?_eq, listVars_eq, List.find?_append, find?_flatMap_vars p hl,
      find?_flatMap_vars p hu]

def hasVars (d : Descriptor) : Bool := (d.findVar? fun _ => true).isSome

def mentions (d : Descriptor) (v : TypeVar) : Bool := (d.findVar? (· == v)).isSome

theorem hasVars_eq (d : Descriptor) : d.hasVars = !d.vars.isEmpty := by
  rw [hasVars, findVar?_eq]
  cases d.vars <;> simp

theorem mentions_eq (d : Descriptor) (v : TypeVar) : d.mentions v = d.vars.contains v := by
  rw [mentions, findVar?_eq]
  induction d.vars with
  | nil => rfl
  | cons w ws ih =>
    rw [List.contains_cons, List.find?_cons, ← ih, Bool.beq_comm]
    cases v == w <;> rfl

def isResolved (d : Descriptor) : Bool := d.raw?.isSome && !d.hasVars

/-! ## Nesting -/

mutual

def nesting : Descriptor → Nat
  | .bare _ => 1
  | .applied owner _ args => max (ownerNesting owner) (listNesting args) + 1
  | .var _ => 1
  | .wildcard lower upper => max (listNesting lower) (listNesting upper) + 1
termination_by structural d => d

def ownerNesting : Option Descriptor → Nat
  | none => 0
  | some d => d.nesting
termination_by structural owner => owner

def listNesting : List Descriptor → Nat
  | [] => 0
  | d :: ds => max d.nesting (listNesting ds)
termination_by structural ds => ds

end

theorem nesting_le_listNesting {d : Descriptor} {ds : List Descriptor} (h : d ∈ ds) :
    d.nesting ≤ listNesting ds := by
  induction ds with
  | nil => simp at h
  | cons e ds ih =>
    simp only [listNesting]
    rcases List.mem_cons.1 h with rfl | h
    · omega
    · have := ih h
      omega

end Descriptor

end Generics
