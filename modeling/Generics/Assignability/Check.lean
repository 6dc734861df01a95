import Generics.Assignability.Rules

/-! # Assignability

The rules with nothing but levels to count. -/

namespace Generics.Store
set_option autoImplicit false

/-- The questions of one check, which start with all levels left. -/
def plainQuestions (s : Store) (p : Profile) : Questions Result := s.questions p id p.maxDepth

/-- Whether a value of type `source` may stand where `target` is required. -/
def isAssignable (s : Store) (target source : Descriptor) : Result Bool :=
  (s.plainQuestions .assignability).assignable target source

/-- Whether `d` lies within a wildcard. -/
def admits (s : Store) (w : Wildcard) (d : Descriptor) : Result Bool :=
  s.wildcardContains s.isAssignable w d

/-- Whether a wildcard leaves room under a declared bound. -/
def leavesRoom (s : Store) (w : Wildcard) (bound : Descriptor) : Result Bool :=
  wildcardWithin s.isAssignable w bound

end Generics.Store
