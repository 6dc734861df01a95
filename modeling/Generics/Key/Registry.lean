import Generics.Key.Specificity

/-! # Values registered under keys

Equal keys have one entry between them. A key that has no entry is resolved to the most specific registered
key that it accepts. -/

namespace Generics
set_option autoImplicit false

/-- Keys with a value each, in the order in which they were first registered. -/
structure Registry (α : Type) where
  entries : List (Key × α)

namespace Registry

variable {α : Type}

def empty : Registry α := ⟨[]⟩

def size (r : Registry α) : Nat := r.entries.length

def get? (r : Registry α) (k : Key) : Option α := (r.entries.find? (·.1 == k)).map (·.2)

def contains (r : Registry α) (k : Key) : Bool := (r.get? k).isSome

/-- The entries with a new value for the key, which keeps its place if it has one. -/
def put (k : Key) (value : α) : List (Key × α) → List (Key × α)
  | [] => [(k, value)]
  | e :: es => if e.1 == k then (e.1, value) :: es else e :: put k value es

def insert (r : Registry α) (k : Key) (value : α) : Option α × Registry α :=
  (r.get? k, ⟨put k value r.entries⟩)

def erase (r : Registry α) (k : Key) : Option α × Registry α :=
  (r.get? k, ⟨r.entries.filter fun e => !(e.1 == k)⟩)

def clear (_ : Registry α) : Registry α := empty

/-- The value of the key, made and registered if there is none; a value that cannot be made leaves the registry
as it was. -/
def getOrTryInsert (r : Registry α) (k : Key) (make : Unit → Result α) : Result α × Registry α :=
  match r.get? k with
  | some value => (.ok value, r)
  | none =>
    match make () with
    | .ok value => (.ok value, (r.insert k value).2)
    | .error fault => (.error fault, r)

/-- The value of the key, made and registered if there is none. -/
def getOrInsert (r : Registry α) (k : Key) (make : Unit → α) : α × Registry α :=
  match r.get? k with
  | some value => (value, r)
  | none =>
    let value := make ()
    (value, (r.insert k value).2)

def candidates (s : Store) (r : Registry α) (required : Key) : Result (List (Key × α)) :=
  r.entries.filterM fun e => required.accepts s e.1

/-- The entry for a required key: its own, or that of the most specific key that it accepts. -/
def resolve? (hasher : Hasher) (s : Store) (r : Registry α) (required : Key) : Result (Option (Key × α)) :=
  match r.get? required with
  | some value => return some (required, value)
  | none => do
    let candidates ← r.candidates s required
    match ← Key.mostSpecific? hasher s (candidates.map (·.1)) with
    | none => return none
    | some best => return candidates.find? (·.1 == best)

/-- The registered keys by their texts, those of one text as they were registered. -/
def keys (r : Registry α) : List Key := Key.sortBy (fun a b => compare a.text b.text) (r.entries.map (·.1))

end Registry

end Generics
