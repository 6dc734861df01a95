import Generics.Key.Basic

/-! # Methods and their calls

A signature is written in terms of its class's type variables and of its own. A call goes through a receiver,
whose type says what the class's variables stand for; those of the method are left to the arguments. -/

namespace Generics
set_option autoImplicit false

/-- A method of a class: its own type parameters, the types of its arguments, and what it returns. -/
structure Signature where
  owner : ClassId
  name : String
  typeParams : List TypeParam
  params : List Descriptor
  returns : Descriptor
deriving Repr

namespace Signature

def scope (m : Signature) : Scope := .ofMethod m.owner m.name

def ownVar (m : Signature) (name : String) : Descriptor := .var ⟨m.scope, name⟩

def arity (m : Signature) : Nat := m.params.length

/-- `Owner.name(P1, P2)`. -/
def display (s : Store) (m : Signature) : String :=
  s.className m.owner ++ "." ++ m.name ++ "(" ++ s.listText m.params ++ ")"

/-- The signature as it is seen through a receiver. A receiver that leaves its arguments open replaces
nothing. -/
def actualizeFor (s : Store) (m : Signature) (receiver : Key) : Result Signature := do
  match ← s.asSupertype receiver.descriptor m.owner with
  | none => throw (.notASupertype receiver.text (s.className m.owner))
  | some view =>
    let bindings := Bindings.map (← s.bindingsOf view)
    let params ← m.params.mapM fun d => s.actualize d bindings
    let returns ← s.actualize m.returns bindings
    return { m with params, returns }

/-! ## Arguments -/

def keepsBounds (s : Store) (v : TypeVar) (arg : Key) (known : Substitution) : Result Bool :=
  match s.checkBounds v arg.descriptor known with
  | .ok _ => .ok true
  | .error (.boundViolation _ _ _) => .ok false
  | .error fault => .error fault

/-- Whether an argument fits the bounds of a variable with their own arguments dropped. -/
def fitsErasedBounds (s : Store) (v : TypeVar) (arg : Key) : Result Bool :=
  ((s.boundsOf v).filterMap (·.erase?)).allM fun bound => s.isAssignable bound arg.descriptor

/-- Whether an argument fits a parameter, and what is known of the method's variables after it. -/
def argumentFits (s : Store) (m : Signature) (known : Substitution) (param : Descriptor) (arg : Key) :
    Result (Bool × Substitution) :=
  match param with
  | .var v =>
    -- the first argument for a variable of the method settles it for later ones
    if v.scope = m.scope then
      match known.get? v with
      | some settled => do return (← s.isAssignable settled arg.descriptor, known)
      | none => do
        if ← keepsBounds s v arg known then return (true, known.insert v arg.descriptor)
        else return (false, known)
    else do return (← fitsErasedBounds s v arg, known)
  | _ =>
    -- a type that merely mentions variables is compared by its class alone
    if param.hasVars then
      match param.erase? with
      | some erased => do return (← s.isAssignable erased arg.descriptor, known)
      | none => return (true, known)
    else do return (← s.isAssignable param arg.descriptor, known)

def checkArguments (s : Store) (m : Signature) (receiver : Key) (args : List Key) : Result Unit := do
  if args.length ≠ m.arity then throw (.arityMismatch (m.display s) m.arity args.length)
  let seen ← m.actualizeFor s receiver
  let step (known : Substitution) (pair : Descriptor × Key) : Result Substitution := do
    let (fits, known) ← m.argumentFits s known pair.1 pair.2
    unless fits do throw (.castRefused (s.text pair.1) pair.2.text)
    return known
  let _ ← (seen.params.zip args).foldlM step .empty

/-! ## Returned types -/

/-- What a returned wildcard is known to be: its first upper bound, else the first bound of the declared
variable that mentions no variables, else the class above all others. -/
def returnedUpper? (s : Store) (declared : Descriptor) (upper : List Descriptor) : Option Descriptor :=
  upper.head? <|>
    (declared.var?.bind fun v => (s.boundsOf v).find? (!·.hasVars)) <|>
    s.root.map .bare

/-- The key of the type that a call through `receiver` returns, a template if variables are left in it. -/
def returnKey (s : Store) (m : Signature) (receiver : Key) : Result Key := do
  let seen ← m.actualizeFor s receiver
  match seen.returns with
  | .wildcard lower upper =>
    match returnedUpper? s m.returns upper with
    | some d => Key.of s d
    | none => throw (.invalidDescriptor (s.text (.wildcard lower upper)) .unboundedReturn)
  | d => if d.hasVars then Key.template s d else Key.of s d

end Signature

end Generics
