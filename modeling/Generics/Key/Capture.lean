import Generics.Key.Basic

/-! # Types captured by a declaration

A class that extends `Literal<Sequence<Text>>` records `Sequence<Text>` where a program can find it. Only what
the class itself declares is looked at, and only the first supertype of the given base. -/

namespace Generics.Key
set_option autoImplicit false

/-- The first argument that the class `token` declares for its supertype `base`. -/
def captured? (token : ClassDecl) (base : ClassId) : Option Descriptor := do
  let supertype ← token.supertypes.find? (·.raw? == some base)
  let argument ← supertype.args.head?
  if argument.hasVars then none else some argument

/-- The key of the type that `token` captures for `base`. -/
def capture (s : Store) (token base : ClassId) : Result Key := do
  let decl ← s.require token
  match captured? decl base with
  | some argument => of s argument
  | none => throw (.missingTypeArgument (s.className token) (s.className base))

end Generics.Key
