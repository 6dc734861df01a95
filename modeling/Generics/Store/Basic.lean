import Std.Data.TreeMap
import Generics.Descriptor.Basic

/-! # Declarations and the store that holds them

A store gives the classes registered in it numbers from a counter that starts at one. A name means the class
registered last under it; earlier ones keep their numbers. Supertypes and bounds are set after registration, so
that classes may mention each other and themselves. -/

namespace Generics
set_option autoImplicit false

inductive ClassKind
  | ordinary
  | interface
deriving DecidableEq, Repr

/-- A type parameter and the bounds an argument has to keep to, which may mention the parameter itself. -/
structure TypeParam where
  name : String
  bounds : List Descriptor
deriving Repr

/-- All that is known of one class: its superclass comes first among the supertypes, which may mention its
own type parameters. -/
structure ClassDecl where
  kind : ClassKind
  name : String
  params : List TypeParam
  supertypes : List Descriptor
  enclosing : Option ClassId
deriving Repr

namespace ClassDecl

def arity (decl : ClassDecl) : Nat := decl.params.length

end ClassDecl

def findParam? (params : List TypeParam) (name : String) : Option TypeParam :=
  params.find? (·.name == name)

/-- The parameters with new bounds for the first one of the given name. -/
def setBoundsIn (params : List TypeParam) (name : String) (bounds : List Descriptor) : List TypeParam :=
  match params with
  | [] => []
  | p :: ps => if p.name = name then { p with bounds } :: ps else p :: setBoundsIn ps name bounds

/-- The declarations: classes by their numbers, the number that comes next, names with the latest registration
first, the type parameters of methods, and the class above all others if one was chosen. -/
structure Store where
  classes : Std.TreeMap UInt32 ClassDecl
  next : UInt32
  names : List (String × ClassId)
  methods : List ((ClassId × String) × List TypeParam)
  root : Option ClassId

namespace Store

def empty : Store := ⟨∅, 1, [], [], none⟩

/-! ## Reading -/

def size (s : Store) : Nat := s.classes.size

def get? (s : Store) (c : ClassId) : Option ClassDecl := s.classes[c.num]?

def contains (s : Store) (c : ClassId) : Bool := (s.get? c).isSome

def lookup (s : Store) (name : String) : Option ClassId := s.names.lookup name

def classVar? (s : Store) (c : ClassId) (name : String) : Option TypeVar := do
  let decl ← s.get? c
  let _ ← findParam? decl.params name
  return ⟨.ofClass c, name⟩

def methodParams? (s : Store) (c : ClassId) (method : String) : Option (List TypeParam) :=
  s.methods.lookup (c, method)

def paramsOf? (s : Store) : Scope → Option (List TypeParam)
  | .ofClass c => (s.get? c).map (·.params)
  | .ofMethod c method => s.methodParams? c method

/-- The bounds of a type variable, if it is declared. -/
def bounds? (s : Store) (v : TypeVar) : Option (List Descriptor) := do
  let params ← s.paramsOf? v.scope
  let param ← findParam? params v.name
  return param.bounds

def boundsOf (s : Store) (v : TypeVar) : List Descriptor := (s.bounds? v).getD []

/-! ## Writing -/

def nextId (s : Store) : ClassId := ⟨s.next⟩

def register (s : Store) (decl : ClassDecl) : ClassId × Store :=
  (s.nextId, { s with
    classes := s.classes.insert s.next decl
    next := s.next + 1
    names := (decl.name, s.nextId) :: s.names })

/-- Adds a class with unbounded parameters and no supertypes. -/
def declare (s : Store) (kind : ClassKind) (name : String) (params : List String) : ClassId × Store :=
  s.register ⟨kind, name, params.map (⟨·, []⟩), [], none⟩

/-- Changes the declaration of a class, and says whether there is one. -/
def update (s : Store) (c : ClassId) (f : ClassDecl → ClassDecl) : Bool × Store :=
  if s.contains c then (true, { s with classes := s.classes.modify c.num f }) else (false, s)

def setSupertypes (s : Store) (c : ClassId) (supertypes : List Descriptor) : Bool × Store :=
  s.update c ({ · with supertypes })

def setBounds (s : Store) (c : ClassId) (param : String) (bounds : List Descriptor) : Bool × Store :=
  if (s.classVar? c param).isSome then
    s.update c fun decl => { decl with params := setBoundsIn decl.params param bounds }
  else (false, s)

def setRoot (s : Store) (c : ClassId) : Bool × Store :=
  if s.contains c then (true, { s with root := some c }) else (false, s)

def setEnclosing (s : Store) (c enclosing : ClassId) : Bool × Store :=
  s.update c ({ · with enclosing := some enclosing })

/-- Declares the type parameters of a method, in place of any before. -/
def setMethodParams (s : Store) (c : ClassId) (method : String) (params : List TypeParam) : Store :=
  { s with methods := ((c, method), params) :: s.methods.filter (·.1 != (c, method)) }

/-! ## What writing does to reading -/

theorem mem_classes {s : Store} {c : ClassId} {decl : ClassDecl} :
    (c.num, decl) ∈ s.classes.toList ↔ s.get? c = some decl :=
  Std.TreeMap.mem_toList_iff_getElem?_eq_some

/-- The next number means the class that is registered; what other numbers mean stays. -/
theorem get?_register (s : Store) (decl : ClassDecl) (c : ClassId) :
    (s.register decl).2.get? c = if c = s.nextId then some decl else s.get? c := by
  have hnum : s.next = c.num ↔ c = s.nextId := ⟨fun h => congrArg ClassId.mk h.symm, fun h => by rw [h]; rfl⟩
  simp only [get?, register, Std.TreeMap.getElem?_insert, Std.LawfulEqOrd.compare_eq_iff_eq, hnum]

/-- Only the declaration asked for is changed. -/
theorem get?_update (s : Store) (c : ClassId) (f : ClassDecl → ClassDecl) (x : ClassId) :
    (s.update c f).2.get? x = if x = c then (s.get? c).map f else s.get? x := by
  have hnum : c.num = x.num ↔ x = c := ⟨fun h => congrArg ClassId.mk h.symm, fun h => by rw [h]⟩
  unfold update
  split
  · simp only [get?, Std.TreeMap.getElem?_modify, Std.LawfulEqOrd.compare_eq_iff_eq, hnum]
  · rename_i hcontains
    have hc : s.get? c = none := by simpa [contains] using hcontains
    split
    · rename_i hx
      rw [hx, hc]
      rfl
    · rfl

theorem lookup_register (s : Store) (decl : ClassDecl) (name : String) :
    (s.register decl).2.lookup name = if name = decl.name then some s.nextId else s.lookup name := by
  by_cases h : name = decl.name
  · simp [lookup, register, h]
  · have hb : (name == decl.name) = false := by simpa using h
    simp [lookup, register, List.lookup_cons, h, hb]

end Store

end Generics
