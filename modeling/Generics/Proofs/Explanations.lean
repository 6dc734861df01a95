import Generics.Proofs.Limits
import Generics.Proofs.Receivers

/-! # Why a type was refused

A refusal is explained after the fact: the check is run once more, then the classes, the view and the arguments are
looked at in turn. This goes another way than the check, which compares owners before arguments, and has one level
more for the arguments. The reason given is still the truth (`Refusal.IsTrue`). What remains when all arguments fit is
the owners, since with more levels no argument fits or fails to fit that did not before. -/

namespace Generics
set_option autoImplicit false

open Result

namespace Store

variable {s : Store} {q : Questions Result}

/-! ## Views and arguments -/

theorem asSupertype_of_viewAs_none {d : Descriptor} {c : ClassId} (h : s.viewAs d c = .ok none) :
    s.asSupertype d c = .ok (some (.bare c)) := by
  rw [viewAs, bind_eq_ok_iff] at h
  obtain ⟨found, hfound, h⟩ := h
  cases found with
  | none => cases h
  | some e =>
    have hraw := (reaches_of_asSupertype hfound).1
    cases e with
    | bare c' =>
      cases hraw
      exact hfound
    | applied owner c' args => cases h
    | var v => cases hraw
    | wildcard lower upper => cases hraw

/-- The first misfit does not fit, and all before it do. -/
theorem argumentFits_of_firstMisfit?_eq_some {c : ClassId} {args args' : List Descriptor} {r a : Descriptor} {i : Nat}
    (h : s.firstMisfit? q c args args' = .ok (some ((r, a), i))) :
    args[i]? = some r ∧ args'[i]? = some a ∧ s.argumentFits q c i r a = .ok false ∧
      ∀ j < i, ∃ r' a', args[j]? = some r' ∧ args'[j]? = some a' ∧ s.argumentFits q c j r' a' = .ok true := by
  obtain ⟨before, later, hsplit, hmisfit, hbefore⟩ := split_of_findM?_eq_some h
  have hat : ∀ (j : Nat) x, (args.zip args').zipIdx[j]? = some x →
      x.2 = j ∧ args[j]? = some x.1.1 ∧ args'[j]? = some x.1.2 := by
    intro j x hx
    rw [List.getElem?_zipIdx, Option.map_eq_some_iff] at hx
    obtain ⟨pair, hpair, rfl⟩ := hx
    exact ⟨Nat.zero_add j, List.getElem?_zip_eq_some.1 hpair⟩
  have hhere := hat before.length ((r, a), i) (by rw [hsplit]; simp)
  obtain ⟨rfl, hr, ha⟩ := hhere
  obtain ⟨fits, hfits, hno⟩ := bind_eq_ok_iff.1 hmisfit
  refine ⟨hr, ha, ?_, fun j hj => ?_⟩
  · cases fits with
    | false => exact hfits
    | true => cases hno
  · have hmem : before[j] ∈ before := List.getElem_mem hj
    obtain ⟨hindex, hr', ha'⟩ := hat j before[j] (by rw [hsplit, List.getElem?_append_left hj]; simp)
    obtain ⟨fits', hfits', hyes⟩ := bind_eq_ok_iff.1 (hbefore _ hmem)
    refine ⟨_, _, hr', ha', ?_⟩
    rw [hindex] at hfits'
    cases fits' with
    | true => exact hfits'
    | false => cases hyes

/-! ## How a check refuses -/

theorem ownersFit_eq_false {owner owner' : Option Descriptor} (h : ownersFit q owner owner' = .ok false) :
    ∃ o o', owner = some o ∧ owner' = some o' ∧ q.assignable o o' = .ok false := by
  unfold ownersFit at h
  split at h
  · exact ⟨_, _, rfl, rfl, h⟩
  · cases h

/-- An application refuses for the class, for a view that leaves its arguments open, for the owners or for an
argument. -/
theorem applicationTakes_eq_false {owner : Option Descriptor} {b c : ClassId} {args : List Descriptor} {d : Descriptor}
    (hd : d.raw? = some b) (h : s.applicationTakes q owner c args d = .ok false) :
    s.isSubclass b c = .ok false ∨ s.viewAs d c = .ok none ∨
      ∃ owner' args', s.viewAs d c = .ok (some (owner', args')) ∧ args.length = args'.length ∧
        (ownersFit q owner owner' = .ok false ∨ ∃ misfit, s.firstMisfit? q c args args' = .ok (some misfit)) := by
  unfold applicationTakes at h
  simp only [ofExcept_eq, rawOf_eq_ok_iff.2 hd, ok_bind] at h
  obtain ⟨sub, hsub, h⟩ := bind_eq_ok_iff.1 h
  cases sub with
  | false => exact .inl hsub
  | true =>
    obtain ⟨view, hview, h⟩ := bind_eq_ok_iff.1 h
    cases view with
    | none => exact .inr (.inl hview)
    | some view =>
      obtain ⟨owner', args'⟩ := view
      dsimp only at h
      split at h
      · cases h
      · rename_i hlength
        refine .inr (.inr ⟨owner', args', hview, not_ne_iff.1 hlength, ?_⟩)
        obtain ⟨fit, hfit, h⟩ := bind_eq_ok_iff.1 h
        cases fit with
        | false => exact .inl hfit
        | true =>
          obtain ⟨found, hfound, h⟩ := bind_eq_ok_iff.1 h
          cases found with
          | none => cases h
          | some misfit => exact .inr ⟨misfit, hfound⟩

/-- Where the class is above and the view has arguments, a type with a class refuses as an application, for the owners
or for an argument. -/
theorem takes_eq_false {target source : Descriptor} {above below : ClassId} {owner' : Option Descriptor}
    {args' : List Descriptor} (ht : target.raw? = some above) (hd : source.raw? = some below)
    (hsub : s.isSubclass below above = .ok true) (hview : s.viewAs source above = .ok (some (owner', args')))
    (h : s.takes q target source = .ok false) :
    ∃ owner args, target = .applied owner above args ∧ args.length = args'.length ∧
      (ownersFit q owner owner' = .ok false ∨ ∃ misfit, s.firstMisfit? q above args args' = .ok (some misfit)) := by
  cases target with
  | bare c =>
    cases ht
    have hyes := (decides_takes_bare hd false h).2 ((isSubclass_eq_ok hsub).1 rfl)
    cases hyes
  | applied owner c args =>
    cases ht
    rw [takes_applied hd] at h
    split at h
    · cases h
    · refine ⟨owner, args, rfl, ?_⟩
      rcases applicationTakes_eq_false hd h with hno | hopen | ⟨owner₁, args₁, hview₁, hrest⟩
      · rw [hsub] at hno
        cases hno
      · rw [hview] at hopen
        cases hopen
      · rw [hview] at hview₁
        cases hview₁
        exact hrest
  | var v => cases ht
  | wildcard lower upper => cases ht

/-! ## What an explanation has found -/

/-- How the explanation comes to a reason. -/
inductive Explains (s : Store) (q : Questions Result) (target source : Descriptor) : Option Refusal → Prop
  | fits (h : q.assignable target source = .ok true) : Explains s q target source none
  | placeholder (hraw : target.raw? = none ∨ source.raw? = none) (h : q.assignable target source = .ok false) :
      Explains s q target source (some (.incompatible (s.text target) (s.text source)))
  | notSubclass {above below : ClassId} (ht : target.raw? = some above) (hd : source.raw? = some below)
      (h : q.assignable target source = .ok false) (hsub : s.isSubclass below above = .ok false) :
      Explains s q target source (some (.notSubclass (s.text target) (s.text source)))
  | openArguments {above below : ClassId} (ht : target.raw? = some above) (hd : source.raw? = some below)
      (h : q.assignable target source = .ok false) (hview : s.viewAs source above = .ok none) :
      Explains s q target source (some (.openArguments (s.text target) (s.text source)))
  | argument {above below : ClassId} {owner : Option Descriptor} {args : List Descriptor} {r a : Descriptor} {i : Nat}
      (ht : target.raw? = some above) (hd : source.raw? = some below) (h : q.assignable target source = .ok false)
      (hview : s.viewAs source above = .ok (some (owner, args)))
      (hmisfit : s.firstMisfit? q above target.args args = .ok (some ((r, a), i))) :
      Explains s q target source (some (.argument i (s.text r) (s.text a)))
  | owners {above below : ClassId} {owner : Option Descriptor} {args : List Descriptor}
      (ht : target.raw? = some above) (hd : source.raw? = some below) (h : q.assignable target source = .ok false)
      (hsub : s.isSubclass below above = .ok true) (hview : s.viewAs source above = .ok (some (owner, args)))
      (hall : s.firstMisfit? q above target.args args = .ok none) :
      Explains s q target source (some (.incompatible (s.text target) (s.text source)))

theorem explains_of_explain {target source : Descriptor} {reason : Option Refusal}
    (h : s.explain q target source = .ok reason) : s.Explains q target source reason := by
  rw [explain, bind_eq_ok_iff] at h
  obtain ⟨fits, hfits, h⟩ := h
  cases fits with
  | true =>
    cases h
    exact .fits hfits
  | false =>
    cases ht : target.raw? with
    | none =>
      simp only [ht] at h
      cases h
      exact .placeholder (.inl ht) hfits
    | some above =>
      cases hd : source.raw? with
      | none =>
        simp only [ht, hd] at h
        cases h
        exact .placeholder (.inr hd) hfits
      | some below =>
        simp only [ht, hd, ofExcept_eq] at h
        obtain ⟨sub, hsub, h⟩ := bind_eq_ok_iff.1 h
        cases sub with
        | false =>
          cases h
          exact .notSubclass ht hd hfits hsub
        | true =>
          obtain ⟨view, hview, h⟩ := bind_eq_ok_iff.1 h
          cases view with
          | none =>
            cases h
            exact .openArguments ht hd hfits hview
          | some view =>
            obtain ⟨owner, args⟩ := view
            obtain ⟨found, hfound, h⟩ := bind_eq_ok_iff.1 h
            cases found with
            | none =>
              cases h
              exact .owners ht hd hfits hsub hview hfound
            | some misfit =>
              obtain ⟨⟨r, a⟩, i⟩ := misfit
              cases h
              exact .argument ht hd hfits hview hfound

end Store

/-! ## Checkers -/

namespace Checker

/-- Whether an argument for the parameter of a class at this position fits the required one. -/
def fits (c : Checker) (cls : ClassId) (index : Nat) (required actual : Descriptor) : Result Bool × Checker :=
  c.run (c.store.argumentFits c.questions cls index required actual)

theorem fst_fits (c : Checker) (cls : ClassId) (index : Nat) (required actual : Descriptor) :
    (c.fits cls index required actual).1 = c.store.argumentFits c.plain cls index required actual :=
  fst_run (c.between_plain.argumentFits c.store cls index required actual)

end Checker

/-- What the reason says is so, on the checker that gave it: of the classes, of the view of the source, of the
arguments of both in order, or of their owners. -/
def Refusal.IsTrue (c : Checker) (target source : Descriptor) : Refusal → Prop
  | .notSubclass required actual => required = c.store.text target ∧ actual = c.store.text source ∧
      ∃ above below, target.raw? = some above ∧ source.raw? = some below ∧
        c.store.isSubclass below above = .ok false
  | .openArguments required actual => required = c.store.text target ∧ actual = c.store.text source ∧
      ∃ above below, target.raw? = some above ∧ source.raw? = some below ∧
        c.store.asSupertype source above = .ok (some (.bare above))
  | .argument index required actual => ∃ above below owner args r a,
      target.raw? = some above ∧ source.raw? = some below ∧
        c.store.asSupertype source above = .ok (some (.applied owner above args)) ∧
        target.args[index]? = some r ∧ args[index]? = some a ∧
        required = c.store.text r ∧ actual = c.store.text a ∧ (c.fits above index r a).1 = .ok false ∧
        ∀ i < index, ∃ r' a', target.args[i]? = some r' ∧ args[i]? = some a' ∧ (c.fits above i r' a').1 = .ok true
  | .incompatible required actual => required = c.store.text target ∧ actual = c.store.text source ∧
      ∀ above below, target.raw? = some above → source.raw? = some below →
        ∃ owner owner' args args', target = .applied (some owner) above args ∧
          c.store.asSupertype source above = .ok (some (.applied (some owner') above args')) ∧
          args.length = args'.length ∧
          (∀ (i : Nat) r a, args[i]? = some r → args'[i]? = some a → (c.fits above i r a).1 = .ok true) ∧
          (c.isAssignable owner owner').1 = .ok false

namespace Checker

/-- What is left when all arguments fit is the owners. The check compared them, and the arguments, one level further
down than the explanation did, and what it found there stands. -/
theorem owners_differ {c : Checker} {target source : Descriptor} {above below : ClassId} {owner' : Option Descriptor}
    {args' : List Descriptor} (ht : target.raw? = some above) (hd : source.raw? = some below)
    (h : c.plain.assignable target source = .ok false) (hsub : c.store.isSubclass below above = .ok true)
    (hview : c.store.viewAs source above = .ok (some (owner', args')))
    (hall : c.store.firstMisfit? c.plain above target.args args' = .ok none) :
    ∃ o o' args, target = .applied (some o) above args ∧ owner' = some o' ∧ args.length = args'.length ∧
      c.plain.assignable o o' = .ok false := by
  cases hlevels : c.levels with
  | zero =>
    rw [plain, hlevels, Store.assignable_questions_zero] at h
    cases h
  | succ levels =>
    have hmore : (settling c.profile.tooDeep).Between (c.store.questions c.profile id levels) c.plain := by
      rw [plain, hlevels]
      exact c.store.between_questions_of_le c.profile c.profile (Nat.le_succ levels)
    rw [plain, hlevels, Store.assignable_questions_succ] at h
    obtain ⟨owner, args, rfl, hlength, howners | ⟨misfit, hmisfit⟩⟩ := Store.takes_eq_false ht hd hsub hview h
    · obtain ⟨o, o', rfl, rfl, hno⟩ := Store.ownersFit_eq_false howners
      exact ⟨o, o', args, rfl, rfl, hlength, (hmore.assignable o o').eq_of_ok hno⟩
    · have hfound := (hmore.firstMisfit? c.store above args args').eq_of_ok hmisfit
      rw [Descriptor.args, hfound] at hall
      cases hall

theorem isTrue_of_explains {c : Checker} {target source : Descriptor} {refusal : Refusal}
    (h : c.store.Explains c.plain target source (some refusal)) : refusal.IsTrue c target source := by
  cases h with
  | placeholder hraw h =>
    refine ⟨rfl, rfl, fun above below ht hd => ?_⟩
    rcases hraw with hraw | hraw
    · cases ht.symm.trans hraw
    · cases hd.symm.trans hraw
  | notSubclass ht hd h hsub => exact ⟨rfl, rfl, _, _, ht, hd, hsub⟩
  | openArguments ht hd h hview => exact ⟨rfl, rfl, _, _, ht, hd, Store.asSupertype_of_viewAs_none hview⟩
  | argument ht hd h hview hmisfit =>
    obtain ⟨hr, ha, hno, hbefore⟩ := Store.argumentFits_of_firstMisfit?_eq_some hmisfit
    refine ⟨_, _, _, _, _, _, ht, hd, Store.asSupertype_of_viewAs hview, hr, ha, rfl, rfl, ?_, fun i hi => ?_⟩
    · rw [fst_fits]
      exact hno
    · obtain ⟨r', a', hr', ha', hyes⟩ := hbefore i hi
      exact ⟨r', a', hr', ha', by rw [fst_fits]; exact hyes⟩
  | owners ht hd h hsub hview hall =>
    refine ⟨rfl, rfl, fun above below ht' hd' => ?_⟩
    cases ht.symm.trans ht'
    obtain ⟨o, o', args, rfl, rfl, hlength, hno⟩ := owners_differ ht hd h hsub hview hall
    refine ⟨o, o', args, _, rfl, Store.asSupertype_of_viewAs hview, hlength, fun i r a hr ha => ?_, ?_⟩
    · rw [fst_fits]
      exact Store.argumentFits_of_firstMisfit? hall i hr ha
    · rw [fst_isAssignable]
      exact hno

/-- Whatever a checker was asked before: if it comes to an explanation, there is none exactly if it says that the
target takes the source, and what a reason says is so. -/
theorem explanation_is_true (c : Checker) (target source : Descriptor) (reason : Option Refusal)
    (h : (c.explain target source).1 = .ok reason) :
    (reason = none ↔ (c.isAssignable target source).1 = .ok true) ∧
      ∀ refusal, reason = some refusal → refusal.IsTrue c target source := by
  rw [fst_explain] at h
  have hexplains := Store.explains_of_explain h
  constructor
  · rw [fst_isAssignable]
    cases hexplains with
    | fits hyes => simp [hyes]
    | placeholder _ hno => simp [hno]
    | notSubclass _ _ hno _ => simp [hno]
    | openArguments _ _ hno _ => simp [hno]
    | argument _ _ hno _ _ => simp [hno]
    | owners _ _ hno _ _ _ => simp [hno]
  · rintro refusal rfl
    exact isTrue_of_explains hexplains

/-- `Sequence<Number>.Inner<Text>` and `Sequence<Text>.Inner<Text>` differ in their owners only. A batch of integers is
a sequence of sequences, and the class of batches alone leaves open of what. -/
theorem shapes_explained :
    let c := Checker.new shapes (.custom 5 0)
    let inside (owner : Descriptor) : Descriptor := .applied (some (.generic ⟨5⟩ [owner])) ⟨8⟩ [.bare ⟨4⟩]
    (c.explain (inside (.bare ⟨2⟩)) (inside (.bare ⟨4⟩))).1 =
        .ok (some (.incompatible "Sequence<Number>.Inner<Text>" "Sequence<Text>.Inner<Text>")) ∧
      (Refusal.incompatible "Sequence<Number>.Inner<Text>" "Sequence<Text>.Inner<Text>").IsTrue c
        (inside (.bare ⟨2⟩)) (inside (.bare ⟨4⟩)) ∧
      (c.explain (.generic ⟨5⟩ [.extending (.bare ⟨2⟩)]) (.generic ⟨6⟩ [.bare ⟨3⟩])).1 =
        .ok (some (.argument 0 "? extends Number" "Sequence<Integer>")) ∧
      (Refusal.argument 0 "? extends Number" "Sequence<Integer>").IsTrue c
        (.generic ⟨5⟩ [.extending (.bare ⟨2⟩)]) (.generic ⟨6⟩ [.bare ⟨3⟩]) ∧
      (c.explain (.generic ⟨5⟩ [.bare ⟨2⟩]) (.bare ⟨6⟩)).1 =
        .ok (some (.openArguments "Sequence<Number>" "Batch")) ∧
      (Refusal.openArguments "Sequence<Number>" "Batch").IsTrue c (.generic ⟨5⟩ [.bare ⟨2⟩]) (.bare ⟨6⟩) ∧
      (c.isAssignable (.generic ⟨5⟩ [.unbounded]) (.generic ⟨6⟩ [.bare ⟨3⟩])).1 = .ok true := by
  intro c inside
  have howners : (c.explain (inside (.bare ⟨2⟩)) (inside (.bare ⟨4⟩))).1 =
      .ok (some (.incompatible "Sequence<Number>.Inner<Text>" "Sequence<Text>.Inner<Text>")) := by rfl
  have hargument : (c.explain (.generic ⟨5⟩ [.extending (.bare ⟨2⟩)]) (.generic ⟨6⟩ [.bare ⟨3⟩])).1 =
      .ok (some (.argument 0 "? extends Number" "Sequence<Integer>")) := by rfl
  have hopen : (c.explain (.generic ⟨5⟩ [.bare ⟨2⟩]) (.bare ⟨6⟩)).1 =
      .ok (some (.openArguments "Sequence<Number>" "Batch")) := by rfl
  exact ⟨howners, (explanation_is_true c _ _ _ howners).2 _ rfl, hargument,
    (explanation_is_true c _ _ _ hargument).2 _ rfl, hopen, (explanation_is_true c _ _ _ hopen).2 _ rfl,
    (explanation_is_true c _ _ none (by rfl)).1.1 rfl⟩

end Checker

end Generics
