import Generics.Document
import Generics.Key.Basic

/-! # Tags: descriptors on a stream

A writer puts a tag in front of a value, and a reader checks it before it reads on. Class numbers are those of
the writer's store, so tags pass only between programs that declare the same classes in the same order; the
text is there for messages. -/

namespace Generics
set_option autoImplicit false

/-! ## Descriptors as documents -/

def ClassId.toDocument (c : ClassId) : Document := .whole c.num.toNat

def ClassId.ofDocument? (d : Document) : Option ClassId := d.word?.map .mk

def Scope.toDocument : Scope → Document
  | .ofClass c => .object [("Class", c.toDocument)]
  | .ofMethod c method => .object [("Method", .array [c.toDocument, .string method])]

def Scope.ofDocument? (d : Document) : Option Scope :=
  match d.variant? with
  | some ("Class", d) => ClassId.ofDocument? d |>.map .ofClass
  | some ("Method", .array [c, method]) => do
    return .ofMethod (← ClassId.ofDocument? c) (← method.string?)
  | _ => none

namespace Descriptor

mutual

def toDocument : Descriptor → Document
  | .bare c => .object [("Concrete", c.toDocument)]
  | .applied owner c args => .object [("Parameterized", .object [("owner", ownerToDocument owner),
      ("raw", c.toDocument), ("args", .array (listToDocuments args))])]
  | .var v => .object [("Var", .object [("decl", v.scope.toDocument), ("name", .string v.name)])]
  | .wildcard lower upper => .object [("Wildcard", .object [("lower", .array (listToDocuments lower)),
      ("upper", .array (listToDocuments upper))])]
termination_by structural d => d

def ownerToDocument : Option Descriptor → Document
  | none => .null
  | some d => d.toDocument
termination_by structural owner => owner

def listToDocuments : List Descriptor → List Document
  | [] => []
  | d :: ds => d.toDocument :: listToDocuments ds
termination_by structural ds => ds

end

/-- Reads a descriptor of at most so many levels. An owner may be missing, all other parts have to be there. -/
def ofDocumentWithin? : Nat → Document → Option Descriptor
  | 0, _ => none
  | levels + 1, d =>
    match d.variant? with
    | some ("Concrete", d) => ClassId.ofDocument? d |>.map .bare
    | some ("Parameterized", d) => do
      let [owner, some raw, some args] ← d.parts? ["owner", "raw", "args"] | none
      let owner ← match owner with
        | none => some none
        | some .null => some none
        | some d => some <$> ofDocumentWithin? levels d
      let raw ← ClassId.ofDocument? raw
      let args ← (← args.array?).mapM fun d => ofDocumentWithin? levels d
      return .applied owner raw args
    | some ("Var", d) => do
      let [some decl, some name] ← d.parts? ["decl", "name"] | none
      return .var ⟨← Scope.ofDocument? decl, ← name.string?⟩
    | some ("Wildcard", d) => do
      let [some lower, some upper] ← d.parts? ["lower", "upper"] | none
      let lower ← (← lower.array?).mapM fun d => ofDocumentWithin? levels d
      let upper ← (← upper.array?).mapM fun d => ofDocumentWithin? levels d
      return .wildcard lower upper
    | _ => none

def ofDocument? (d : Document) : Option Descriptor := ofDocumentWithin? d.depth d

end Descriptor

/-! ## Tags -/

structure Tag where
  descriptor : Descriptor
  text : String
deriving Repr

namespace Tag

def ofKey (k : Key) : Tag := ⟨k.descriptor, k.text⟩

/-- Checks that the tag is that of the expected key. The text plays no part in it. -/
def verify (t : Tag) (expected : Key) : Result Unit :=
  if t.descriptor == expected.descriptor then .ok () else .error (.tagMismatch expected.text t.text)

def toKey (s : Store) (t : Tag) : Result Key := Key.of s t.descriptor

/-- A tag as a document. -/
def toDocument (t : Tag) : Document :=
  .object [("descriptor", t.descriptor.toDocument), ("text", .string t.text)]

/-- Reads a tag. -/
def ofDocument? (d : Document) : Option Tag := do
  let [some descriptor, some text] ← d.parts? ["descriptor", "text"] | none
  return ⟨← Descriptor.ofDocument? descriptor, ← text.string?⟩

end Tag

end Generics
