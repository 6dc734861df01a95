import Generics.Assignability.Check
import Generics.Proofs.Checkers

/-! # What a check may end in

Whatever the store and the types, a check fails for a type that is malformed or not declared, or for a walk gone too
far, and for nothing else. So a fault never says that two types do not go together: that is what the answer `false` is
for, and a cast that is refused was refused by an answer. Nor is it a fault of bindings that are too few or too many.
Nor is it ever that of a view that is not there: a rule looks for the view only where the search has found the class to
be above, and there the walk, if it comes to an answer, finds one, however the classes are declared. -/

namespace Generics
set_option autoImplicit false

open Result

/-- The fault is one of a check. -/
def Fault.isOfCheck : Fault → Bool
  | .invalidDescriptor _ _ => true
  | .unknownClass _ => true
  | .depthExceeded _ _ => true
  | _ => false

/-- If there is a fault, it is one of a check. -/
abbrev FailsAsCheck {α : Type} (x : Result α) : Prop := Ensures (fun fault => fault.isOfCheck) (fun _ => True) x

theorem FailsAsCheck.bind {α β : Type} {x : Result α} {f : α → Result β} (hx : FailsAsCheck x)
    (hf : ∀ a, FailsAsCheck (f a)) : FailsAsCheck (x >>= f) :=
  Ensures.bind hx fun a _ => hf a

theorem FailsAsCheck.map {α β : Type} {x : Result α} {f : α → β} (hx : FailsAsCheck x) : FailsAsCheck (f <$> x) :=
  Ensures.map hx fun _ _ => trivial

theorem failsAsCheck_apply (σ : Substitution) (d : Descriptor) : FailsAsCheck (σ.apply d) := by
  rw [Substitution.apply_eq]
  split
  · exact trivial
  · split
    · exact trivial
    · exact rfl

theorem failsAsCheck_seenFrom (view : Option Substitution) (supertype : Descriptor) :
    FailsAsCheck (seenFrom view supertype) := by
  cases view with
  | none => exact trivial
  | some σ => exact (failsAsCheck_apply σ supertype).map

namespace Store

variable (s : Store)

/-! ## Walks -/

theorem failsAsCheck_require (c : ClassId) : FailsAsCheck (s.require c) := by
  unfold require
  split
  · exact trivial
  · exact rfl

theorem failsAsCheck_rawOf (d : Descriptor) : FailsAsCheck (s.rawOf d) := by
  unfold rawOf
  split
  · exact trivial
  · exact rfl

theorem failsAsCheck_bindingsFrom (σ : Substitution) (d : Descriptor) : FailsAsCheck (s.bindingsFrom σ d) := by
  induction d using Descriptor.induct generalizing σ with
  | bare c => exact trivial
  | applied owner c args ho ha =>
    rw [bindingsFrom]
    refine (s.failsAsCheck_require c).bind fun decl => ?_
    split
    · exact rfl
    · cases owner with
      | none => exact trivial
      | some o => exact ho o rfl _
  | var v => exact trivial
  | wildcard lower upper => exact trivial

theorem failsAsCheck_viewOf (d : Descriptor) (decl : ClassDecl) : FailsAsCheck (s.viewOf d decl) := by
  unfold viewOf
  split
  · split
    · exact (s.failsAsCheck_bindingsFrom _ _).map
    · exact trivial
  · exact (s.failsAsCheck_bindingsFrom _ _).map

theorem failsAsCheck_walkUp (target : ClassId) (levels : Nat) (path : List ClassId) (d : Descriptor) (n : Nat) :
    FailsAsCheck ((s.walkUp target levels path d).run n) := by
  induction levels generalizing path d n with
  | zero =>
    rw [walkUp_run]
    refine (s.failsAsCheck_rawOf d).bind fun c => ?_
    split
    · exact trivial
    · split <;> exact rfl
  | succ levels ih =>
    rw [walkUp_run]
    refine (s.failsAsCheck_rawOf d).bind fun c => ?_
    split
    · exact trivial
    · split
      · exact rfl
      · dsimp only
        split
        · exact trivial
        · refine (s.failsAsCheck_require c).bind fun decl => (s.failsAsCheck_viewOf d decl).bind fun view => ?_
          refine ensures_findSomeM?_run (fun _ => trivial) (fun supertype _ m => ?_) (n + 1)
          rw [walkInto_run]
          refine (failsAsCheck_seenFrom view supertype).bind fun seen => ?_
          cases seen with
          | none => exact trivial
          | some above => exact ih (c :: path) above m

theorem failsAsCheck_asSupertype (d : Descriptor) (target : ClassId) : FailsAsCheck (s.asSupertype d target) := by
  rw [asSupertype_eq]
  exact (s.failsAsCheck_walkUp target maxHierarchyDepth [] d 0).map

theorem failsAsCheck_searchUp (target : ClassId) (visits : Nat) (visited : Std.TreeSet UInt32)
    (queue : List ClassId) : FailsAsCheck (s.searchUp target visits visited queue) := by
  induction visits generalizing visited queue with
  | zero =>
    rw [searchUp]
    split
    · exact trivial
    · exact rfl
  | succ visits ih =>
    rw [searchUp]
    split
    · exact trivial
    · refine (s.failsAsCheck_require _).bind fun decl => ?_
      split
      · exact trivial
      · exact ih _ _

theorem failsAsCheck_isSubclass (sub sup : ClassId) : FailsAsCheck (s.isSubclass sub sup) := by
  unfold isSubclass
  split
  · exact trivial
  · exact s.failsAsCheck_searchUp sup _ _ _

/-- What the search says to be above is not missed by the walk. -/
theorem asSupertype_ne_none {d : Descriptor} {c target : ClassId} (hraw : d.raw? = some c)
    (h : s.isSubclass c target = .ok true) : s.asSupertype d target ≠ .ok none :=
  fun hnone => not_above_of_asSupertype hraw hnone ((isSubclass_eq_ok h).1 rfl)

theorem failsAsCheck_viewAs {d : Descriptor} {c target : ClassId} (hraw : d.raw? = some c)
    (h : s.isSubclass c target = .ok true) : FailsAsCheck (s.viewAs d target) := by
  have hfails := s.failsAsCheck_asSupertype d target
  unfold viewAs
  cases hfound : s.asSupertype d target with
  | error fault =>
    rw [hfound] at hfails
    exact hfails
  | ok found =>
    cases found with
    | none => exact (s.asSupertype_ne_none hraw h hfound).elim
    | some e => cases e <;> exact trivial

/-! ## Rules -/

theorem failsAsCheck_withDeclaredUpper (c : ClassId) (index : Nat) (arg : Descriptor) :
    FailsAsCheck (s.withDeclaredUpper c index arg) := by
  unfold withDeclaredUpper
  split
  · exact (s.failsAsCheck_require c).bind fun _ => trivial
  · exact trivial

/-- Neither question ends in another fault. -/
structure AllFailAsCheck (q : Questions Result) : Prop where
  assignable : ∀ t d, FailsAsCheck (q.assignable t d)
  contains : ∀ w d, FailsAsCheck (q.contains w d)

theorem failsAsCheck_wildcardContains {assignable : Descriptor → Descriptor → Result Bool}
    (h : ∀ t d, FailsAsCheck (assignable t d)) (w : Wildcard) (d : Descriptor) :
    FailsAsCheck (s.wildcardContains assignable w d) := by
  unfold wildcardContains
  split
  · refine FailsAsCheck.bind (ensures_allM fun u _ => ensures_anyM fun u' _ => h u u') fun b => ?_
    split
    · exact ensures_allM fun l _ => ensures_anyM fun l' _ => h l' l
    · exact trivial
  · refine FailsAsCheck.bind (ensures_allM fun u _ => h u _) fun b => ?_
    split
    · exact ensures_allM fun l _ => h _ l
    · exact trivial

theorem failsAsCheck_wildcardWithin {assignable : Descriptor → Descriptor → Result Bool}
    (h : ∀ t d, FailsAsCheck (assignable t d)) (w : Wildcard) (bound : Descriptor) :
    FailsAsCheck (wildcardWithin assignable w bound) := by
  have hrelated : ∀ u, FailsAsCheck (do if ← assignable bound u then return true else assignable u bound) := by
    refine fun u => (h bound u).bind fun below => ?_
    cases below with
    | true => exact trivial
    | false => exact h u bound
  unfold wildcardWithin
  refine FailsAsCheck.bind (ensures_allM fun u _ => hrelated u) fun b => ?_
  split
  · exact ensures_allM fun l _ => h bound l
  · exact trivial

variable {q : Questions Result}

theorem AllFailAsCheck.firstMisfit? (h : AllFailAsCheck q) (c : ClassId) (required actual : List Descriptor) :
    FailsAsCheck (s.firstMisfit? q c required actual) := by
  refine ensures_findM? fun ⟨⟨r, a⟩, index⟩ _ => FailsAsCheck.bind ?_ fun _ => trivial
  unfold argumentFits
  split
  · rw [ofExcept_eq]
    exact (s.failsAsCheck_withDeclaredUpper c index a).bind fun _ => h.contains _ _
  · exact trivial

theorem AllFailAsCheck.applicationTakes (h : AllFailAsCheck q) (owner : Option Descriptor) (c : ClassId)
    (args : List Descriptor) (source : Descriptor) : FailsAsCheck (s.applicationTakes q owner c args source) := by
  unfold Store.applicationTakes
  simp only [ofExcept_eq]
  refine Ensures.bind ((s.failsAsCheck_rawOf source).and fun _ => rawOf_eq_ok_iff.1) fun below hraw => ?_
  refine Ensures.bind ((s.failsAsCheck_isSubclass below c).and fun _ hsub => hsub) fun sub hsub => ?_
  cases sub with
  | false => exact trivial
  | true =>
    refine (s.failsAsCheck_viewAs hraw.2 hsub.2).bind fun view => ?_
    cases view with
    | none => exact trivial
    | some view =>
      obtain ⟨owner', args'⟩ := view
      dsimp only
      split
      · exact rfl
      · refine FailsAsCheck.bind ?_ fun fit => ?_
        · unfold ownersFit
          split
          · exact h.assignable _ _
          · exact trivial
        · cases fit with
          | false => exact trivial
          | true => exact (h.firstMisfit? s c args args').bind fun _ => trivial

theorem AllFailAsCheck.takes (h : AllFailAsCheck q) (target source : Descriptor) :
    FailsAsCheck (s.takes q target source) := by
  unfold Store.takes
  split
  · exact trivial
  split
  · exact s.failsAsCheck_wildcardContains h.assignable _ _
  · exact ensures_anyM fun _ _ => h.assignable _ _
  · exact trivial
  · exact ensures_anyM fun _ _ => h.assignable _ _
  · simp only [ofExcept_eq]
    exact (s.failsAsCheck_rawOf source).bind fun below => s.failsAsCheck_isSubclass below _
  · exact h.applicationTakes s _ _ _ _

theorem AllFailAsCheck.explain (h : AllFailAsCheck q) (target source : Descriptor) :
    FailsAsCheck (s.explain q target source) := by
  unfold Store.explain
  refine (h.assignable target source).bind fun fits => ?_
  cases fits with
  | true => exact trivial
  | false =>
    cases target.raw? with
    | none => exact trivial
    | some above =>
      cases hraw : source.raw? with
      | none => exact trivial
      | some below =>
        simp only [ofExcept_eq]
        refine Ensures.bind ((s.failsAsCheck_isSubclass below above).and fun _ hsub => hsub) fun sub hsub => ?_
        cases sub with
        | false => exact trivial
        | true =>
          refine (s.failsAsCheck_viewAs hraw hsub.2).bind fun view => ?_
          cases view with
          | none => exact trivial
          | some view =>
            refine (h.firstMisfit? s above _ _).bind fun found => ?_
            cases found with
            | none => exact trivial
            | some entry => exact trivial

theorem allFailAsCheck_questions (p : Profile) (levels : Nat) : AllFailAsCheck (s.questions p id levels) := by
  induction levels with
  | zero =>
    constructor
    · intro t d
      rw [assignable_questions_zero]
      exact rfl
    · intro w d
      rw [contains_questions_zero]
      exact rfl
  | succ levels ih =>
    constructor
    · intro t d
      rw [assignable_questions_succ]
      exact ih.takes s t d
    · intro w d
      rw [contains_questions_succ]
      exact s.failsAsCheck_wildcardContains ih.assignable w d

theorem failsAsCheck_isAssignable (target source : Descriptor) : FailsAsCheck (s.isAssignable target source) :=
  (s.allFailAsCheck_questions .assignability _).assignable target source

theorem failsAsCheck_admits (w : Wildcard) (d : Descriptor) : FailsAsCheck (s.admits w d) :=
  s.failsAsCheck_wildcardContains s.failsAsCheck_isAssignable w d

theorem failsAsCheck_leavesRoom (w : Wildcard) (bound : Descriptor) : FailsAsCheck (s.leavesRoom w bound) :=
  failsAsCheck_wildcardWithin s.failsAsCheck_isAssignable w bound

end Store

/-! ## Views that are looked for -/

theorem FailsAsCheck.ne_notASupertype {α : Type} {x : Result α} (h : FailsAsCheck x) (below above : String) :
    x ≠ .error (.notASupertype below above) := by
  rintro rfl
  cases h

namespace Checker

theorem failsAsCheck_isAssignable (c : Checker) (target source : Descriptor) :
    FailsAsCheck (c.isAssignable target source).1 := by
  rw [fst_isAssignable]
  exact (c.store.allFailAsCheck_questions c.profile _).assignable target source

theorem failsAsCheck_explain (c : Checker) (target source : Descriptor) :
    FailsAsCheck (c.explain target source).1 := by
  rw [fst_explain]
  exact (c.store.allFailAsCheck_questions c.profile _).explain c.store target source

end Checker

/-- Where the search says that a class is above, the walk never comes to the answer that it is not. So neither a check
nor an explanation fails because a view is not there. -/
theorem walks_never_contradict (s : Store) :
    (∀ (d : Descriptor) (c target : ClassId), d.raw? = some c → s.isSubclass c target = .ok true →
        s.asSupertype d target ≠ .ok none) ∧
      (∀ (target source : Descriptor) (below above : String),
        s.isAssignable target source ≠ .error (.notASupertype below above)) ∧
      ∀ checker : Checker, checker.store = s → ∀ (target source : Descriptor) (below above : String),
        (checker.isAssignable target source).1 ≠ .error (.notASupertype below above) ∧
          (checker.explain target source).1 ≠ .error (.notASupertype below above) := by
  refine ⟨fun d c target hraw h => s.asSupertype_ne_none hraw h, ?_, ?_⟩
  · intro target source below above
    exact (s.failsAsCheck_isAssignable target source).ne_notASupertype below above
  · intro checker _ target source below above
    exact ⟨(checker.failsAsCheck_isAssignable target source).ne_notASupertype below above,
      (checker.failsAsCheck_explain target source).ne_notASupertype below above⟩

/-- From `Stray` the walk fails at a wildcard; it does not say that there is nothing above. -/
theorem tangle_walks :
    Store.tangle.isSubclass ⟨5⟩ ⟨9⟩ = .ok true ∧ Store.tangle.asSupertype (.bare ⟨5⟩) ⟨9⟩ ≠ .ok none ∧
      Store.tangle.isSubclass ⟨4⟩ ⟨2⟩ = .ok true ∧
      Store.tangle.asSupertype (.bare ⟨4⟩) ⟨2⟩ = .ok (some (.generic ⟨2⟩ [.bare ⟨3⟩])) ∧
      ((Checker.new Store.tangle (.custom 3 0)).explain (.generic ⟨2⟩ [.bare ⟨1⟩]) (.bare ⟨4⟩)).1 ≠
        .error (.notASupertype "Bottom" "Left") := by
  obtain ⟨hwalk, -, hcheck⟩ := walks_never_contradict Store.tangle
  have hstray : Store.tangle.isSubclass ⟨5⟩ ⟨9⟩ = .ok true := by rfl
  exact ⟨hstray, hwalk (.bare ⟨5⟩) ⟨5⟩ ⟨9⟩ rfl hstray, by rfl, by rfl,
    (hcheck (Checker.new Store.tangle (.custom 3 0)) rfl _ _ "Bottom" "Left").2⟩

end Generics
