import Generics.Key.Basic
import Generics.Descriptor.Digest

/-! # From special to general

A key is more specific than another when the other accepts it and not the other way round. Keys that are not
related this way stand in the order of their texts, then of their classes' numbers, then of their digests under a
given hasher.

Being more specific is no total order, and mixed with the order of texts it need not even be transitive. So
keys are not sorted by comparison: of those left, the first by text order that none of them is more specific than
comes next. -/

namespace Generics.Key
set_option autoImplicit false

/-! ## Comparing two keys -/

/-- The order by text, class and digest. -/
def textOrder (hasher : Hasher) (a b : Key) : Ordering :=
  ((compare a.text b.text).then (compare a.raw.num b.raw.num)).then
    (compare (a.descriptor.digest hasher) (b.descriptor.digest hasher))

/-- Whether `a` is strictly more specific than `b`. -/
def moreSpecific (s : Store) (a b : Key) : Result Bool :=
  if a == b then return false
  else do
    if ← b.accepts s a then return !(← a.accepts s b) else return false

/-- The more specific key is the lesser one; unrelated keys go by text order. -/
def compareBySpecificity (hasher : Hasher) (s : Store) (a b : Key) : Result Ordering :=
  if a == b then return .eq
  else do
    let below ← b.accepts s a
    let above ← a.accepts s b
    return match below, above with
      | true, true => .eq
      | true, false => .lt
      | false, true => .gt
      | false, false => textOrder hasher a b

/-! ## Sorting -/

def insertBy (order : Key → Key → Ordering) (k : Key) : List Key → List Key
  | [] => [k]
  | l :: ls => if order k l = .gt then l :: insertBy order k ls else k :: l :: ls

/-- The keys in the order, those that tie as they were. -/
def sortBy (order : Key → Key → Ordering) (keys : List Key) : List Key := keys.foldr (insertBy order) []

def sortByText (hasher : Hasher) : List Key → List Key := sortBy (textOrder hasher)

/-! ## Most specific first -/

def isMinimal (s : Store) (keys : List Key) (k : Key) : Result Bool := do
  return !(← keys.anyM fun other => other.moreSpecific s k)

/-- The first of the candidates that is minimal among the keys, and the candidates without it. -/
def pickMinimal? (s : Store) (keys : List Key) : List Key → Result (Option (Key × List Key))
  | [] => return none
  | k :: ks => do
    if ← isMinimal s keys k then return some (k, ks)
    return (← pickMinimal? s keys ks).map fun (best, rest) => (best, k :: rest)

/-- The key that comes first among those left, and the others. Were none minimal, it would be the first. -/
def pickFirst? (s : Store) (keys : List Key) : Result (Option (Key × List Key)) := do
  match ← pickMinimal? s keys keys with
  | some pick => return some pick
  | none => return keys.head?.map fun k => (k, keys.tail)

/-- Picks one key after the other, as many as `count`. -/
def linearize (s : Store) : Nat → List Key → Result (List Key)
  | 0, _ => return []
  | count + 1, keys => do
    match ← pickFirst? s keys with
    | none => return []
    | some (k, rest) => return k :: (← linearize s count rest)

def sort (hasher : Hasher) (s : Store) (keys : List Key) : Result (List Key) :=
  linearize s keys.length (sortByText hasher keys)

/-- A key that none is more specific than, the first by text order. -/
def mostSpecific? (hasher : Hasher) (s : Store) (keys : List Key) : Result (Option Key) := do
  return (← pickFirst? s (sortByText hasher keys)).map (·.1)

end Generics.Key
