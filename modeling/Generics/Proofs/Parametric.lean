import Generics.Assignability.Refusal

/-! # The rules cannot tell one way of computing from another

The rules are stated for any monad that can fail, and all they do in it is to return, to fail and to go on with an
answer. A `Correspondence` relates computations of one monad to those of another and is kept by these three. Then it
is kept by every rule: if two ways of answering questions correspond, so do the rules that ask them. -/

namespace Generics
set_option autoImplicit false

/-- A relation between the computations of two monads that answers, faults and sequences keep. -/
structure Correspondence (m m' : Type → Type) [Monad m] [MonadExcept Fault m] [Monad m'] [MonadExcept Fault m'] where
  Rel : {α : Type} → m α → m' α → Prop
  pure : ∀ {α : Type} (a : α), Rel (pure a) (pure a)
  throw : ∀ {α : Type} (fault : Fault), Rel (throw fault : m α) (throw fault : m' α)
  bind : ∀ {α β : Type} {x : m α} {y : m' α} {f : α → m β} {g : α → m' β}, Rel x y → (∀ a, Rel (f a) (g a)) →
    Rel (x >>= f) (y >>= g)

namespace Correspondence

variable {m m' : Type → Type} [Monad m] [MonadExcept Fault m] [Monad m'] [MonadExcept Fault m']
variable (R : Correspondence m m') {α : Type}

theorem ofExcept (y : Result α) : R.Rel (ofExcept y) (ofExcept y) := by
  cases y with
  | ok a => exact R.pure a
  | error fault => exact R.throw fault

/-! ## Loops -/

theorem andThen {x x' : m Bool} {y y' : m' Bool} (hx : R.Rel x y) (hx' : R.Rel x' y') :
    R.Rel (do if ← x then x' else return false) (do if ← y then y' else return false) := by
  refine R.bind hx fun b => ?_
  cases b with
  | false => exact R.pure false
  | true => exact hx'

theorem orElse {x x' : m Bool} {y y' : m' Bool} (hx : R.Rel x y) (hx' : R.Rel x' y') :
    R.Rel (do if ← x then return true else x') (do if ← y then return true else y') := by
  refine R.bind hx fun b => ?_
  cases b with
  | false => exact hx'
  | true => exact R.pure true

section Loops

variable {f : α → m Bool} {g : α → m' Bool} (h : ∀ a, R.Rel (f a) (g a)) (l : List α)

include h

theorem allM : R.Rel (l.allM f) (l.allM g) := by
  induction l with
  | nil => exact R.pure true
  | cons a l ih =>
    refine R.bind (h a) fun b => ?_
    cases b with
    | false => exact R.pure false
    | true => exact ih

theorem anyM : R.Rel (l.anyM f) (l.anyM g) := by
  induction l with
  | nil => exact R.pure false
  | cons a l ih =>
    refine R.bind (h a) fun b => ?_
    cases b with
    | false => exact ih
    | true => exact R.pure true

theorem findM? : R.Rel (l.findM? f) (l.findM? g) := by
  induction l with
  | nil => exact R.pure none
  | cons a l ih =>
    refine R.bind (h a) fun b => ?_
    cases b with
    | false => exact ih
    | true => exact R.pure (some a)

end Loops

/-! ## The rules -/

/-- Every question corresponds to the same question answered in the other way. -/
structure Between (q : Questions m) (q' : Questions m') : Prop where
  assignable : ∀ t d, R.Rel (q.assignable t d) (q'.assignable t d)
  contains : ∀ w d, R.Rel (q.contains w d) (q'.contains w d)

section Rules

variable (s : Store)

theorem wildcardContains {f : Descriptor → Descriptor → m Bool} {g : Descriptor → Descriptor → m' Bool}
    (h : ∀ t d, R.Rel (f t d) (g t d)) (w : Wildcard) (d : Descriptor) :
    R.Rel (s.wildcardContains f w d) (s.wildcardContains g w d) := by
  unfold Store.wildcardContains
  split
  · exact R.andThen (R.allM (fun u => R.anyM (fun u' => h u u') _) _) (R.allM (fun l => R.anyM (fun l' => h l' l) _) _)
  · exact R.andThen (R.allM (fun u => h u d) _) (R.allM (fun l => h d l) _)

theorem wildcardWithin {f : Descriptor → Descriptor → m Bool} {g : Descriptor → Descriptor → m' Bool}
    (h : ∀ t d, R.Rel (f t d) (g t d)) (w : Wildcard) (bound : Descriptor) :
    R.Rel (Store.wildcardWithin f w bound) (Store.wildcardWithin g w bound) := by
  unfold Store.wildcardWithin
  exact R.andThen (R.allM (fun u => R.orElse (h bound u) (h u bound)) _) (R.allM (fun l => h bound l) _)

variable {R} {q : Questions m} {q' : Questions m'} (h : R.Between q q')

include h

theorem Between.argumentFits (c : ClassId) (index : Nat) (required actual : Descriptor) :
    R.Rel (s.argumentFits q c index required actual) (s.argumentFits q' c index required actual) := by
  unfold Store.argumentFits
  split
  · exact R.bind (R.ofExcept _) fun actual' => h.contains _ actual'
  · exact R.pure _

theorem Between.firstMisfit? (c : ClassId) (required actual : List Descriptor) :
    R.Rel (s.firstMisfit? q c required actual) (s.firstMisfit? q' c required actual) := by
  unfold Store.firstMisfit?
  refine R.findM? (fun entry => ?_) _
  obtain ⟨⟨required, actual⟩, index⟩ := entry
  exact R.bind (h.argumentFits s c index required actual) fun b => R.pure !b

theorem Between.ownersFit (required actual : Option Descriptor) :
    R.Rel (Store.ownersFit q required actual) (Store.ownersFit q' required actual) := by
  unfold Store.ownersFit
  split
  · exact h.assignable _ _
  · exact R.pure true

theorem Between.applicationTakes (owner : Option Descriptor) (c : ClassId) (args : List Descriptor)
    (source : Descriptor) :
    R.Rel (s.applicationTakes q owner c args source) (s.applicationTakes q' owner c args source) := by
  unfold Store.applicationTakes
  refine R.bind (R.ofExcept _) fun below => R.bind (R.ofExcept _) fun sub => ?_
  cases sub with
  | false => exact R.pure false
  | true =>
    refine R.bind (R.ofExcept _) fun view => ?_
    cases view with
    | none => exact R.pure false
    | some view =>
      have hrest : R.Rel
          (do if ← Store.ownersFit q owner view.1 then return (← s.firstMisfit? q c args view.2).isNone
              else return false)
          (do if ← Store.ownersFit q' owner view.1 then return (← s.firstMisfit? q' c args view.2).isNone
              else return false) :=
        R.andThen (h.ownersFit owner view.1) (R.bind (h.firstMisfit? s c args view.2) fun found => R.pure found.isNone)
      by_cases hl : args.length = view.2.length
      · simp only [hl, ne_eq, not_true_eq_false, if_false]
        exact hrest
      · simp only [hl, ne_eq, not_false_eq_true, if_true]
        exact R.bind (R.throw _) fun _ => hrest

theorem Between.takes (target source : Descriptor) : R.Rel (s.takes q target source) (s.takes q' target source) := by
  unfold Store.takes
  split
  · exact R.pure true
  split
  · exact R.wildcardContains s h.assignable _ source
  · exact R.anyM (fun bound => h.assignable target bound) _
  · exact R.pure false
  · exact R.anyM (fun u => h.assignable target u) _
  · exact R.bind (R.ofExcept _) fun below => R.ofExcept _
  · exact h.applicationTakes s _ _ _ source

theorem Between.explain (target source : Descriptor) :
    R.Rel (s.explain q target source) (s.explain q' target source) := by
  unfold Store.explain
  refine R.bind (h.assignable target source) fun fits => ?_
  cases fits with
  | true => exact R.pure none
  | false =>
    cases target.raw? with
    | none => exact R.pure _
    | some above =>
      cases source.raw? with
      | none => exact R.pure _
      | some below =>
        refine R.bind (R.ofExcept _) fun sub => ?_
        cases sub with
        | false => exact R.pure _
        | true =>
          refine R.bind (R.ofExcept _) fun view => ?_
          cases view with
          | none => exact R.pure _
          | some view =>
            refine R.bind (h.firstMisfit? s above _ _) fun found => ?_
            cases found with
            | none => exact R.pure _
            | some entry => exact R.pure _

end Rules

end Correspondence

end Generics
