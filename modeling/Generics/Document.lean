/-! # Documents

The values that a stream of records is made of: the usual ones of a text format for data. Numbers are either
whole or written with a fraction, and the two are told apart even where their values agree. -/

namespace Generics
set_option autoImplicit false

/-- A value of a record stream. -/
inductive Document
  | null
  | bool (b : Bool)
  | whole (n : Int)
  | fraction (digits : Int) (places : Nat)
  | string (t : String)
  | array (items : List Document)
  | object (fields : List (String × Document))
deriving Inhabited, Repr

namespace Document

/-! ## Depth -/

mutual

def depth : Document → Nat
  | .array items => listDepth items + 1
  | .object fields => fieldsDepth fields + 1
  | _ => 1
termination_by structural d => d

def listDepth : List Document → Nat
  | [] => 0
  | d :: ds => max d.depth (listDepth ds)
termination_by structural ds => ds

def fieldsDepth : List (String × Document) → Nat
  | [] => 0
  | (_, d) :: fs => max d.depth (fieldsDepth fs)
termination_by structural fs => fs

end

/-! ## Reading -/

def string? : Document → Option String
  | .string t => some t
  | _ => none

def array? : Document → Option (List Document)
  | .array items => some items
  | _ => none

def word? : Document → Option UInt32
  | .whole n => if 0 ≤ n ∧ n < 4294967296 then some n.toNat.toUInt32 else none
  | _ => none

def variant? : Document → Option (String × Document)
  | .object [field] => some field
  | _ => none

/-- The named parts of a record, in the given order. It is an object, which may have other fields as well
and need not have all of these, or an array of just these. -/
def parts? (names : List String) : Document → Option (List (Option Document))
  | .object fields => some (names.map fun name => fields.lookup name)
  | .array items => if items.length = names.length then some (items.map some) else none
  | _ => none

end Document

end Generics
