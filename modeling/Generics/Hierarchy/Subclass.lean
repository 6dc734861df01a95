import Std.Data.TreeSet
import Generics.Store.Arity

/-! # Which class is below which

The search goes breadth first from a class to the classes of its declared supertypes, each class being looked
at once, so it ends on cyclic declarations too. It gives up when it would have to look at more than
`maxHierarchyVisits` classes. -/

namespace Generics
set_option autoImplicit false

/-- The classes of the declared supertypes, placeholders left out. -/
def ClassDecl.parents (decl : ClassDecl) : List ClassId := decl.supertypes.filterMap (·.raw?)

namespace Store

/-- Goes through the queue, with so many visits left and these class numbers visited, and says whether `target`
is a parent of some class reached. -/
def searchUp (s : Store) (target : ClassId) : Nat → Std.TreeSet UInt32 → List ClassId → Result Bool
  | visits, visited, queue =>
    match queue.dropWhile (visited.contains ·.num) with
    | [] => .ok false
    | c :: rest =>
      match visits with
      | 0 => .error (.depthExceeded .hierarchyWalk maxHierarchyVisits)
      | visits + 1 => do
        let decl ← s.require c
        if target ∈ decl.parents then return true
        s.searchUp target visits (visited.insert c.num) (rest ++ decl.parents)

def isSubclass (s : Store) (sub sup : ClassId) : Result Bool :=
  if sub = sup then .ok true else s.searchUp sup maxHierarchyVisits ∅ [sub]

end Store

end Generics
