import Generics.Assignability.Refusal
import Generics.Budget.Depth

/-! # A checker that answers one question after the other

A checker has a store, a profile and a counter of the levels it is down. Each level is entered on the counter
and left again, whatever comes out, so that the counter is where it was when the next question comes. -/

namespace Generics
set_option autoImplicit false

/-- A computation that may fail and counts its levels; the count survives a fault. -/
abbrev CheckM := ExceptT Fault (StateM DepthCounter)

/-- Runs `body` one level down, and comes up again on success and on failure. -/
def descend {α : Type} (p : Profile) (body : CheckM α) : CheckM α := ExceptT.mk fun counter =>
  match counter.enter with
  | (false, counter) => (.error p.tooDeep, counter)
  | (true, counter) =>
    let (answer, counter) := body.run counter
    (answer, counter.leave)

/-- A store to check against, the limits of a check, and the levels under way. -/
structure Checker where
  store : Store
  profile : Profile
  counter : DepthCounter

namespace Checker

def new (s : Store) (p : Profile) : Checker := ⟨s, p, .ofProfile p⟩

/-- The questions of a checker. The counter refuses before the levels run out. -/
def questions (c : Checker) : Questions CheckM :=
  c.store.questions c.profile (descend c.profile) (c.profile.maxDepth + 1)

/-- Runs a check, and gives the checker as the check leaves it. -/
def run {α : Type} (c : Checker) (check : CheckM α) : Result α × Checker :=
  let (answer, counter) := check.run c.counter
  (answer, { c with counter })

def isAssignable (c : Checker) (target source : Descriptor) : Result Bool × Checker :=
  c.run (c.questions.assignable target source)

def explain (c : Checker) (target source : Descriptor) : Result (Option Refusal) × Checker :=
  c.run (c.store.explain c.questions target source)

def contains (c : Checker) (w : Wildcard) (d : Descriptor) : Result Bool × Checker :=
  c.run (c.store.wildcardContains c.questions.assignable w d)

def within (c : Checker) (w : Wildcard) (bound : Descriptor) : Result Bool × Checker :=
  c.run (Store.wildcardWithin c.questions.assignable w bound)

end Checker

end Generics
