import Std.Data.TreeMap

/-! # Interned strings

An interner gives each string a number, its atom, which stays the same as long as the interner is used. The
strings lie in sixteen shards; which one is up to a function of the string. An atom is the place of the
string in its shard, four bits up, and the number of the shard below. The empty string is there from the
start and has the atom zero. A shard keeps its strings in the order in which they came, where atoms are
resolved, and a map from strings to atoms, where strings are looked up. -/

namespace Generics
set_option autoImplicit false

structure Atom where
  index : UInt32
deriving DecidableEq, Repr

namespace Atom

def null : Atom := ⟨0⟩

def isNull (a : Atom) : Bool := a.index == 0

/-- The atom that no string gets before a shard is full. -/
def last : Atom := ⟨4294967295⟩

def pack (shard : Fin 16) (slot : Nat) : Atom := ⟨(slot * 16 + shard.val).toUInt32⟩

def shard (a : Atom) : Fin 16 := ⟨a.index.toNat % 16, by omega⟩

def slot (a : Atom) : Nat := a.index.toNat / 16

end Atom

/-- How many strings fit in a shard. -/
def shardCapacity : Nat := 268435456

theorem Atom.toNat_index_pack (shard : Fin 16) {slot : Nat} (h : slot < shardCapacity) :
    (pack shard slot).index.toNat = slot * 16 + shard.val := by
  have hs := shard.isLt
  simp only [shardCapacity] at h
  simp only [pack, Nat.toUInt32_eq, UInt32.toNat_ofNat']
  omega

@[simp] theorem Atom.shard_pack (shard : Fin 16) {slot : Nat} (h : slot < shardCapacity) :
    (pack shard slot).shard = shard := by
  have hs := shard.isLt
  ext
  simp only [Atom.shard, toNat_index_pack shard h]
  omega

@[simp] theorem Atom.slot_pack (shard : Fin 16) {slot : Nat} (h : slot < shardCapacity) :
    (pack shard slot).slot = slot := by
  have hs := shard.isLt
  simp only [Atom.slot, toNat_index_pack shard h]
  omega

/-- Strings by place, and the atoms that they were given. -/
structure Shard where
  strings : Array String
  atoms : Std.TreeMap String Atom

namespace Shard

def empty : Shard := ⟨#[], ∅⟩

/-- The string at the end, under this atom. -/
def add (shard : Shard) (text : String) (a : Atom) : Shard := ⟨shard.strings.push text, shard.atoms.insert text a⟩

end Shard

structure Interner (shardOf : String → Fin 16) where
  shards : Vector Shard 16

namespace Interner

variable {shardOf : String → Fin 16}

def new : Interner shardOf := ⟨(Vector.replicate 16 .empty).set 0 (Shard.empty.add "" .null)⟩

def lookup (i : Interner shardOf) (text : String) : Option Atom :=
  if text = "" then some .null else (i.shards.get (shardOf text)).atoms[text]?

/-- The atom of a string, which is added if need be. What does not fit in its shard any more gets the atom of
the empty string. -/
def intern (i : Interner shardOf) (text : String) : Atom × Interner shardOf :=
  match i.lookup text with
  | some atom => (atom, i)
  | none =>
    let number := shardOf text
    let shard := i.shards.get number
    if shard.strings.size < shardCapacity then
      let atom := .pack number shard.strings.size
      (atom, ⟨i.shards.set number (shard.add text atom)⟩)
    else (.null, i)

def resolve? (i : Interner shardOf) (a : Atom) : Option String := (i.shards.get a.shard).strings[a.slot]?

/-- The string of an atom, empty if there is none. -/
def resolve (i : Interner shardOf) (a : Atom) : String := (i.resolve? a).getD ""

def size (i : Interner shardOf) : Nat := i.shards.toList.foldl (fun count shard => count + shard.strings.size) 0

def isEmpty (i : Interner shardOf) : Bool := i.size ≤ 1

end Interner

def shardBySum (text : String) : Fin 16 :=
  Fin.ofNat 16 (text.toList.foldl (fun sum c => sum + c.toNat) 0)

end Generics
