import Generics.Store.Basic

/-! # The canonical text of a descriptor

`Outer<A>.Inner<B>`, `Mapping<Text, Sequence<Integer>>`, `? extends Number`, `? super Integer`, `?`. A class
that is not declared is written by its number. The bounds of a wildcard are written in the order of their
texts, each text once, so that wildcards that are the same have one text. -/

namespace Generics
set_option autoImplicit false

/-! ## Sets of texts -/

/-- Puts a text at its place in an ascending list, unless it is there. -/
def insertText (t : String) : List String → List String
  | [] => [t]
  | u :: us => if t < u then t :: u :: us else if t = u then u :: us else u :: insertText t us

def textSet (ts : List String) : List String := ts.foldr insertText []

theorem mem_insertText {t u : String} {ts : List String} : u ∈ insertText t ts ↔ u = t ∨ u ∈ ts := by
  induction ts with
  | nil => simp [insertText]
  | cons x xs ih =>
    simp only [insertText]
    split
    · simp
    · split
      · subst t
        simp
      · simp [ih, or_left_comm]

theorem mem_textSet {u : String} {ts : List String} : u ∈ textSet ts ↔ u ∈ ts := by
  induction ts with
  | nil => simp [textSet]
  | cons t ts ih =>
    simp only [textSet, List.foldr_cons, mem_insertText, List.mem_cons] at ih ⊢
    rw [ih]

/-! ## Texts of descriptors -/

namespace Store

def className (s : Store) (c : ClassId) : String :=
  match s.get? c with
  | some decl => decl.name
  | none => s!"#{c.num}"

/-- A word and the set of texts after it, nothing if there are none. -/
def boundsText (word : String) (texts : List String) : String :=
  if texts.isEmpty then "" else word ++ " & ".intercalate (textSet texts)

mutual

/-- The canonical text of a descriptor. -/
def text (s : Store) : Descriptor → String
  | .bare c => s.className c
  | .applied owner c args =>
    s.ownerText owner ++ s.className c ++
      (if args.isEmpty then "" else "<" ++ ", ".intercalate (s.texts args) ++ ">")
  | .var v => v.name
  | .wildcard lower upper =>
    "?" ++ boundsText " extends " (s.texts upper) ++ boundsText " super " (s.texts lower)
termination_by structural d => d

def ownerText (s : Store) : Option Descriptor → String
  | none => ""
  | some d => s.text d ++ "."
termination_by structural owner => owner

def texts (s : Store) : List Descriptor → List String
  | [] => []
  | d :: ds => s.text d :: s.texts ds
termination_by structural ds => ds

end

theorem texts_eq (s : Store) (ds : List Descriptor) : s.texts ds = ds.map s.text := by
  induction ds with
  | nil => rfl
  | cons d ds ih => simp [texts, ih]

/-- The texts of a list in one, with commas between. -/
def listText (s : Store) (ds : List Descriptor) : String := ", ".intercalate (s.texts ds)

end Store

end Generics
