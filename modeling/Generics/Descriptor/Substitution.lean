import Generics.Descriptor.Basic

/-! # Substitutions

A substitution binds finitely many type variables, each once: a later binding of a variable takes the place of
an earlier one. `Descriptor.subst` replaces all bound variables of a descriptor at once and does not look
into what it puts in. -/

namespace Generics
set_option autoImplicit false

structure Substitution where
  entries : List (TypeVar × Descriptor)
deriving Repr

namespace Substitution

def empty : Substitution := ⟨[]⟩

def get? (σ : Substitution) (v : TypeVar) : Option Descriptor := σ.entries.lookup v

def contains (σ : Substitution) (v : TypeVar) : Bool := (σ.get? v).isSome

def size (σ : Substitution) : Nat := σ.entries.length

def isEmpty (σ : Substitution) : Bool := σ.entries.isEmpty

/-- Binds a variable, anew if it was bound. -/
def insert (σ : Substitution) (v : TypeVar) (d : Descriptor) : Substitution :=
  ⟨(v, d) :: σ.entries.filter (·.1 != v)⟩

def insertAll (σ : Substitution) (bindings : List (TypeVar × Descriptor)) : Substitution :=
  bindings.foldl (fun σ b => σ.insert b.1 b.2) σ

/-- The names of one declaration bound to arguments in order, as far as both go. -/
def ofArgs (scope : Scope) (names : List String) (args : List Descriptor) : Substitution :=
  empty.insertAll ((names.map (TypeVar.mk scope)).zip args)

@[simp] theorem get?_empty (v : TypeVar) : empty.get? v = none := rfl

theorem get?_insert (σ : Substitution) (v w : TypeVar) (d : Descriptor) :
    (σ.insert v d).get? w = if w = v then some d else σ.get? w := by
  by_cases h : w = v
  · simp [get?, insert, h]
  · have hb : (w == v) = false := by simpa using h
    simp only [get?, insert, List.lookup_cons, hb, h, if_false]
    induction σ.entries with
    | nil => rfl
    | cons e es ih =>
      obtain ⟨x, y⟩ := e
      by_cases he : x = v
      · subst he
        simpa [List.lookup_cons, hb] using ih
      · simp [List.lookup_cons, he, ih]

end Substitution

namespace Descriptor

mutual

/-- The descriptor with each bound variable replaced by what it is bound to. -/
def subst (σ : Substitution) : Descriptor → Descriptor
  | .bare c => .bare c
  | .applied owner c args => .applied (substOwner σ owner) c (substList σ args)
  | .var v => (σ.get? v).getD (.var v)
  | .wildcard lower upper => .wildcard (substList σ lower) (substList σ upper)
termination_by structural d => d

def substOwner (σ : Substitution) : Option Descriptor → Option Descriptor
  | none => none
  | some d => some (d.subst σ)
termination_by structural owner => owner

def substList (σ : Substitution) : List Descriptor → List Descriptor
  | [] => []
  | d :: ds => d.subst σ :: substList σ ds
termination_by structural ds => ds

end

@[simp] theorem substOwner_eq (σ : Substitution) (owner : Option Descriptor) :
    substOwner σ owner = owner.map (subst σ) := by
  cases owner <;> rfl

@[simp] theorem substList_eq (σ : Substitution) (ds : List Descriptor) :
    substList σ ds = ds.map (subst σ) := by
  induction ds with
  | nil => rfl
  | cons d ds ih => simp [substList, ih]

theorem subst_eq_self {σ : Substitution} {d : Descriptor} (h : ∀ v ∈ d.vars, σ.get? v = none) :
    d.subst σ = d := by
  induction d using Descriptor.induct with
  | bare c => rfl
  | applied owner c args ho ha =>
    simp only [vars, ownerVars_eq, listVars_eq, List.mem_append, List.mem_flatMap] at h
    simp only [subst, substOwner_eq, substList_eq, applied.injEq, true_and]
    constructor
    · cases owner with
      | none => rfl
      | some o => simp [ho o rfl fun v hv => h v (.inl hv)]
    · rw [List.map_congr_left (g := id) fun a hm => ha a hm fun v hv => h v (.inr ⟨a, hm, hv⟩)]
      simp
  | var v => simp [subst, h v (by simp [vars])]
  | wildcard lower upper hl hu =>
    simp only [vars, listVars_eq, List.mem_append, List.mem_flatMap] at h
    simp only [subst, substList_eq, wildcard.injEq]
    constructor
    · rw [List.map_congr_left (g := id) fun a hm => hl a hm fun v hv => h v (.inl ⟨a, hm, hv⟩)]
      simp
    · rw [List.map_congr_left (g := id) fun a hm => hu a hm fun v hv => h v (.inr ⟨a, hm, hv⟩)]
      simp

end Descriptor

end Generics
