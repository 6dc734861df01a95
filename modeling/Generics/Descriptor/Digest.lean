import Generics.Descriptor.Comparison

/-! # Digests that respect sameness

A digest writes a descriptor as a sequence of words and lets a hasher turn them into one. The bounds of a
wildcard are digested one by one and added up, each distinct bound once, so that their order and repetitions
leave no trace and descriptors that are the same have the same digest under every hasher. -/

namespace Generics
set_option autoImplicit false

/-- What makes one word of the words written to it. -/
abbrev Hasher := List UInt64 → UInt64

def nameWords (name : String) : List UInt64 :=
  name.length.toUInt64 :: name.toList.map fun c => c.val.toUInt64

def Scope.words : Scope → List UInt64
  | .ofClass cls => [0, cls.num.toUInt64]
  | .ofMethod cls method => 1 :: cls.num.toUInt64 :: nameWords method

namespace Descriptor

mutual

def words (h : Hasher) : Descriptor → List UInt64
  | .bare c => [0, c.num.toUInt64]
  | .applied owner c args =>
    1 :: ownerWords h owner ++ c.num.toUInt64 :: args.length.toUInt64 :: listWords h args
  | .var v => 2 :: v.scope.words ++ nameWords v.name
  | .wildcard lower upper => [3, boundsDigest h [] lower, boundsDigest h [] upper]

def ownerWords (h : Hasher) : Option Descriptor → List UInt64
  | none => [0]
  | some d => 1 :: d.words h

def listWords (h : Hasher) : List Descriptor → List UInt64
  | [] => []
  | d :: ds => d.words h ++ listWords h ds

/-- The sum of the bounds' own digests, a bound that is the same as an earlier one left out. -/
def boundsDigest (h : Hasher) (earlier : List Descriptor) : List Descriptor → UInt64
  | [] => 0
  | d :: ds => (if earlier.any (· == d) then 0 else h (d.words h)) + boundsDigest h (d :: earlier) ds

end

def digest (h : Hasher) (d : Descriptor) : UInt64 := h (d.words h)

end Descriptor

end Generics
