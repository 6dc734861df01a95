import Generics.Proofs.Receivers

/-! # Wildcards without upper bounds

An argument `?` of a class means no more than the parameter that it fills allows. The check makes up for the missing
bounds when it compares arguments, and by then the type is seen through the class of the target: the bounds are those
of the parameter that the wildcard has come to fill there. `completed` writes them down. Two types whose views through
a class are completed to the same type are told apart by no type of that class (`agree_takes_of_completed`). -/

namespace Generics.Store
set_option autoImplicit false

open Result

variable {s : Store}

/-! ## The bounds written down -/

/-- An argument for the parameter at position `i` of the class `c`, a wildcard with its upper bounds written down. -/
def completedArgument (s : Store) (c : ClassId) (i : Nat) : Descriptor → Descriptor
  | .wildcard lower [] => .wildcard lower (s.impliedUpper (s.settledBounds c i))
  | d => d

/-- A type with the upper bounds of its arguments written down. -/
def completed (s : Store) : Descriptor → Descriptor
  | .applied owner c args => .applied owner c (args.mapIdx (s.completedArgument c))
  | d => d

theorem completedArgument_of_ne {c : ClassId} {i : Nat} {a : Descriptor} (h : ∀ lower, a ≠ .wildcard lower []) :
    s.completedArgument c i a = a := by
  unfold completedArgument
  split
  · rename_i lower
    exact (h lower rfl).elim
  · rfl

theorem impliedUpper_impliedUpper (upper : List Descriptor) :
    s.impliedUpper (s.impliedUpper upper) = s.impliedUpper upper := by
  cases upper with
  | nil =>
    cases hr : s.root with
    | none => simp [impliedUpper, hr]
    | some r => simp [impliedUpper, hr]
  | cons u upper => rfl

/-- What lies within bounds with the missing ones written down does so with the declared ones. -/
theorem within_withDeclaredUpper {R : Descriptor → Descriptor → Prop} {lower upper : List Descriptor} {c : ClassId}
    {i : Nat} {a bounded : Descriptor} (h : s.Within R lower upper (s.completedArgument c i a))
    (hbounded : s.withDeclaredUpper c i a = .ok bounded) : s.Within R lower upper bounded := by
  rcases eq_unbounded_or_ne a with ⟨lower', rfl⟩ | hne
  · obtain ⟨decl, hdecl, _⟩ := bind_eq_ok_iff.1 hbounded
    rw [withDeclaredUpper_unbounded (require_eq_ok_iff.1 hdecl)] at hbounded
    cases hbounded
    refine ⟨fun u hu => ?_, h.2⟩
    rw [← impliedUpper_impliedUpper]
    exact h.1 u hu
  · rw [withDeclaredUpper_of_ne hne] at hbounded
    cases hbounded
    rwa [completedArgument_of_ne hne] at h

/-! ## Arguments -/

theorem contains_impliedUpper (levels : Nat) (w : Wildcard) (lower upper : List Descriptor) :
    (s.asks levels).contains w (.wildcard lower (s.impliedUpper upper)) =
      (s.asks levels).contains w (.wildcard lower upper) := by
  cases levels with
  | zero => rw [contains_questions_zero, contains_questions_zero]
  | succ levels =>
    rw [contains_questions_succ, contains_questions_succ]
    simp only [wildcardContains, impliedUpper_impliedUpper]

theorem withDeclaredUpper_completedArgument {c : ClassId} {decl : ClassDecl} (hc : s.get? c = some decl) {i : Nat}
    {lower : List Descriptor} :
    s.withDeclaredUpper c i (s.completedArgument c i (.wildcard lower [])) =
      .ok (.wildcard lower (s.impliedUpper (s.settledBounds c i))) := by
  show s.withDeclaredUpper c i (.wildcard lower (s.impliedUpper (s.settledBounds c i))) = _
  cases himplied : s.impliedUpper (s.settledBounds c i) with
  | nil =>
    have hnone : s.settledBounds c i = [] := by
      cases hbounds : s.settledBounds c i with
      | nil => rfl
      | cons b bounds =>
        rw [hbounds] at himplied
        cases himplied
    rw [withDeclaredUpper_unbounded hc, hnone]
  | cons u upper => rfl

/-- An argument that fits, or does not, does so with its upper bounds written down. -/
theorem argumentFits_completedArgument {levels : Nat} {c : ClassId} {i : Nat} {r a : Descriptor} {fits : Bool}
    (h : s.argumentFits (s.asks levels) c i r a = .ok fits) :
    s.argumentFits (s.asks levels) c i r (s.completedArgument c i a) = .ok fits := by
  rcases eq_unbounded_or_ne a with ⟨lower, rfl⟩ | hne
  · unfold argumentFits at h ⊢
    cases r with
    | wildcard lower' upper' =>
      simp only [ofExcept_eq] at h ⊢
      obtain ⟨bounded, hbounded, h⟩ := bind_eq_ok_iff.1 h
      obtain ⟨decl, hdecl, _⟩ := bind_eq_ok_iff.1 hbounded
      have hc := require_eq_ok_iff.1 hdecl
      rw [withDeclaredUpper_unbounded hc] at hbounded
      cases hbounded
      rw [withDeclaredUpper_completedArgument hc, ok_bind, contains_impliedUpper]
      exact h
    | bare c' => exact h
    | applied owner c' args => exact h
    | var v => exact h
  · rw [completedArgument_of_ne hne]
    exact h

theorem agree_argumentFits_of_completed (levels : Nat) (c : ClassId) (i : Nat) (r : Descriptor) {a a' : Descriptor}
    (h : s.completedArgument c i a == s.completedArgument c i a') :
    Agree (· = ·) (s.argumentFits (s.asks levels) c i r a) (s.argumentFits (s.asks levels) c i r a') :=
  fun _ _ hfits hfits' => (s.consistent_questions .assignability levels).argumentFits c i BEq.rfl h _ _
    (argumentFits_completedArgument hfits) (argumentFits_completedArgument hfits')

/-- What is the same as an argument takes whatever is completed to the same. -/
theorem fitsAt_of_completed {c : ClassId} {i : Nat} {r a a' : Descriptor} (hr : r == a)
    (h : s.completedArgument c i a == s.completedArgument c i a') : s.FitsAt s.Allows c i r a' := by
  by_cases hw : ∃ lower upper, r = .wildcard lower upper
  · obtain ⟨lower, upper, rfl⟩ := hw
    refine .inr ⟨lower, upper, rfl, fun bounded hbounded => within_withDeclaredUpper ?_ hbounded⟩
    obtain ⟨lower₁, upper₁, rfl, hl, hu⟩ := Descriptor.wildcard_beq_iff.1 hr
    cases upper₁ with
    | nil =>
      -- a wildcard without upper bounds takes those that were written down on the right
      obtain ⟨lower₂, upper₂, heq, hl₂, _⟩ := Descriptor.wildcard_beq_iff.1 h
      rw [heq, hu.eq_nil_iff.2 rfl]
      refine ⟨by simp, fun l hmem => ?_⟩
      obtain ⟨l₁, hmem₁, heq₁⟩ := hl.1 l hmem
      obtain ⟨l₂, hmem₂, heq₂⟩ := hl₂.1 l₁ hmem₁
      exact ⟨l₂, hmem₂, allows_of_beq (BEq.symm (BEq.trans heq₁ heq₂))⟩
    | cons u₁ upper₁ => exact Within.of_beq (fun _ _ => allows_of_beq) (BEq.trans hr h)
  · have ha : ∀ lower upper, a ≠ .wildcard lower upper := by
      rintro lower upper rfl
      obtain ⟨lower', upper', rfl, _⟩ := Descriptor.wildcard_beq_iff.1 (BEq.symm hr)
      exact hw ⟨lower', upper', rfl⟩
    rw [completedArgument_of_ne fun lower => ha lower []] at h
    have ha' : ∀ lower, a' ≠ .wildcard lower [] := by
      rintro lower rfl
      obtain ⟨lower', upper', rfl, _⟩ := Descriptor.wildcard_beq_iff.1 (BEq.symm h)
      exact ha lower' upper' rfl
    rw [completedArgument_of_ne ha'] at h
    exact .inl (BEq.trans hr h)

/-! ## Types -/

theorem raw?_completed (d : Descriptor) : (s.completed d).raw? = d.raw? := by
  cases d <;> rfl

theorem completed_completed (d : Descriptor) : s.completed (s.completed d) = s.completed d := by
  cases d with
  | applied owner c args =>
    have hagain : ∀ i a, s.completedArgument c i (s.completedArgument c i a) = s.completedArgument c i a := by
      intro i a
      rcases eq_unbounded_or_ne a with ⟨lower, rfl⟩ | hne
      · cases h : s.impliedUpper (s.settledBounds c i) with
        | nil => simp [completedArgument, h]
        | cons u upper => simp [completedArgument, h]
      · simp only [completedArgument_of_ne hne]
    simp only [completed, List.mapIdx_mapIdx]
    congr 2
    funext i a
    exact hagain i a
  | bare c => rfl
  | var v => rfl
  | wildcard lower upper => rfl

theorem completed_applied_of_beq {owner : Option Descriptor} {c : ClassId} {args : List Descriptor} {d : Descriptor}
    (h : s.completed (.applied owner c args) == s.completed d) :
    ∃ owner' args', d = .applied owner' c args' ∧ SameFound owner owner' ∧ args.length = args'.length ∧
      ∀ (i : Nat) a a', args[i]? = some a → args'[i]? = some a' →
        s.completedArgument c i a == s.completedArgument c i a' := by
  obtain ⟨owner', args₁, hd, howner, hargs⟩ := Descriptor.applied_beq_iff.1 h
  cases d with
  | applied owner₂ c₂ args' =>
    cases hd
    refine ⟨owner', args', rfl, howner, by simpa using hargs.length_eq, fun i a a' ha ha' => ?_⟩
    obtain ⟨e, he, heq⟩ := exists_getElem?_of_forall₂ hargs
      (show (args.mapIdx (s.completedArgument c))[i]? = some (s.completedArgument c i a) by simp [ha])
    rw [List.getElem?_mapIdx, ha'] at he
    cases he
    exact heq
  | bare c' => cases hd
  | var v => cases hd
  | wildcard lower upper => cases hd

/-- An application does not refuse what is seen as a type completed to the same one. -/
theorem decides_applicationTakes_of_completed {owner : Option Descriptor} {a b : ClassId} {args : List Descriptor}
    {d d' view : Descriptor} (heq : Descriptor.applied owner a args == d) (hd' : d'.raw? = some b)
    (hb : s.Below b a) (hview : s.asSupertype d' a = .ok (some view)) (h : s.completed d == s.completed view)
    (levels : Nat) : Decides True (s.applicationTakes (s.asks levels) owner a args d') := by
  obtain ⟨owner₁, args₁, rfl, howner₁, hargs₁⟩ := Descriptor.applied_beq_iff.1 heq
  obtain ⟨owner₂, args₂, rfl, howner₂, hlen, hargs₂⟩ := completed_applied_of_beq h
  refine decides_applicationTakes hd' hb (viewAs_of_asSupertype hview) (hargs₁.length_eq.trans hlen) ?_ ?_ levels
  · rintro o o₂ rfl rfl
    cases howner₁ with
    | some heq₁ =>
      cases howner₂ with
      | some heq₂ => exact allows_of_beq (BEq.trans heq₁ heq₂)
  · intro i r e hr he
    obtain ⟨e₁, he₁, heq₁⟩ := exists_getElem?_of_forall₂ hargs₁ hr
    exact fitsAt_of_completed heq₁ (hargs₂ i e₁ e he₁ he)

theorem agree_applicationTakes_of_completed {levels : Nat} {owner : Option Descriptor} {args : List Descriptor}
    {d d' view view' : Descriptor} {a b b' : ClassId} (hd : d.raw? = some b) (hd' : d'.raw? = some b')
    (hb : s.Below b a) (hb' : s.Below b' a) (hview : s.asSupertype d a = .ok (some view))
    (hview' : s.asSupertype d' a = .ok (some view')) (h : s.completed view == s.completed view') :
    Agree (· = ·) (s.applicationTakes (s.asks levels) owner a args d)
      (s.applicationTakes (s.asks levels) owner a args d') := by
  unfold applicationTakes
  simp only [ofExcept_eq, rawOf_eq_ok_iff.2 hd, rawOf_eq_ok_iff.2 hd', ok_bind]
  have hbelow : Agree (fun x y => x = true ∧ y = true) (s.isSubclass b a) (s.isSubclass b' a) :=
    fun _ _ hx hy => ⟨(isSubclass_eq_ok hx).2 hb, (isSubclass_eq_ok hy).2 hb'⟩
  refine hbelow.bind ?_
  rintro _ _ ⟨rfl, rfl⟩
  cases view with
  | applied owner₁ c₁ args₁ =>
    cases (reaches_of_asSupertype hview).1
    obtain ⟨owner₂, args₂, rfl, howner, hlen, hargs⟩ := completed_applied_of_beq h
    simp only [if_true, viewAs_of_asSupertype hview, viewAs_of_asSupertype hview', ok_bind, ← hlen]
    split
    · exact agree_error _ _
    · have hq := s.consistent_questions .assignability levels
      refine (hq.ownersFit ?_ howner).and (agree_firstMisfit? rfl hlen fun i r e r' e' hr he hr' he' => ?_)
      · cases owner with
        | none => exact .none
        | some o => exact .some BEq.rfl
      · cases hr.symm.trans hr'
        exact agree_argumentFits_of_completed levels a i r (hargs i e e' he he')
  | bare c₁ =>
    have hbare : view' = .bare c₁ := by
      cases view' with
      | bare c₂ => exact Descriptor.bare_beq_iff.1 h
      | applied owner₂ c₂ args₂ => cases h
      | var v => cases h
      | wildcard lower upper => cases h
    subst hbare
    simp only [viewAs, hview, hview', ok_bind, if_true]
    exact agree_refl _
  | var v => cases (reaches_of_asSupertype hview).1
  | wildcard lower upper => cases (reaches_of_asSupertype hview).1

/-- Types that are seen through the class of the target as types completed to the same one get the same answers. -/
theorem agree_takes_of_completed {target d d' view view' : Descriptor} {a b b' : ClassId}
    (ht : target.raw? = some a) (hd : d.raw? = some b) (hd' : d'.raw? = some b') (hb : s.Below b a)
    (hb' : s.Below b' a) (hview : s.asSupertype d a = .ok (some view))
    (hview' : s.asSupertype d' a = .ok (some view')) (h : s.completed view == s.completed view') (levels : Nat) :
    Agree (· = ·) (s.takes (s.asks levels) target d) (s.takes (s.asks levels) target d') := by
  -- a type that is the same as the target is its own view
  have self : ∀ {e view : Descriptor}, (target == e) = true → s.asSupertype e a = .ok (some view) → view = e := by
    intro e view heq hview
    rw [asSupertype_self ((Descriptor.raw?_eq_of_beq heq).symm.trans ht)] at hview
    cases hview
    rfl
  cases target with
  | bare c =>
    cases ht
    have hbare := (decides_takes_bare (q := s.asks levels) hd).iff (iff_true_intro hb)
    exact hbare.agree ((decides_takes_bare hd').iff (iff_true_intro hb'))
  | applied owner c args =>
    cases ht
    rw [takes_applied hd, takes_applied hd']
    by_cases heq : Descriptor.applied owner a args == d
    · rw [if_pos heq]
      split
      · exact agree_ok rfl
      · cases self heq hview
        exact (decides_ok (by simp)).agree (decides_applicationTakes_of_completed heq hd' hb' hview' h levels)
    · rw [if_neg heq]
      split
      · rename_i heq'
        cases self heq' hview'
        exact (decides_applicationTakes_of_completed heq' hd hb hview (BEq.symm h) levels).agree (decides_ok (by simp))
      · exact agree_applicationTakes_of_completed hd hd' hb hb' hview hview' h
  | var v => cases ht
  | wildcard lower upper => cases ht

theorem agree_isAssignable_of_takes {target d d' : Descriptor}
    (h : ∀ levels, Agree (· = ·) (s.takes (s.asks levels) target d) (s.takes (s.asks levels) target d')) :
    Agree (· = ·) (s.isAssignable target d) (s.isAssignable target d') := by
  have hlevel : ∀ levels,
      Agree (· = ·) ((s.asks levels).assignable target d) ((s.asks levels).assignable target d') := by
    intro levels
    cases levels with
    | zero =>
      rw [assignable_questions_zero, assignable_questions_zero]
      exact agree_error _ _
    | succ levels =>
      rw [assignable_questions_succ, assignable_questions_succ]
      exact h levels
  exact hlevel _

/-! ## A wildcard and its parameter -/

theorem settledBounds_eq {c : ClassId} {decl : ClassDecl} {i : Nat} {param : TypeParam} (hc : s.get? c = some decl)
    (hparam : decl.params[i]? = some param) (hbounds : ∀ b ∈ param.bounds, b.vars = []) :
    s.settledBounds c i = param.bounds := by
  simp only [settledBounds, hc, Option.bind_some, hparam, Option.map_some, Option.getD_some]
  refine List.filter_eq_self.2 fun b hb => ?_
  simp [Descriptor.hasVars_eq, hbounds b hb]

/-- For the class itself it makes no difference whether the bounds are written down beforehand. -/
theorem completed_set {c : ClassId} {i : Nat} {owner : Option Descriptor} {args lower : List Descriptor}
    (harg : args[i]? = some (.wildcard lower [])) :
    s.completed (.applied owner c (args.set i (.wildcard lower (s.settledBounds c i)))) =
      s.completed (.applied owner c args) := by
  have hwritten : s.completedArgument c i (.wildcard lower (s.settledBounds c i)) =
      s.completedArgument c i (.wildcard lower []) := by
    cases h : s.settledBounds c i with
    | nil => rfl
    | cons b bounds => simp [completedArgument, h, impliedUpper]
  refine congrArg (Descriptor.applied owner c) (List.ext_getElem? fun j => ?_)
  rw [List.getElem?_mapIdx, List.getElem?_mapIdx, List.getElem?_set]
  split
  · rename_i heq
    obtain ⟨hlt, _⟩ := List.getElem?_eq_some_iff.1 harg
    rw [← heq, harg, if_pos hlt, Option.map_some, Option.map_some, hwritten]
  · rfl

/-- An argument without upper bounds means those that the class of the target declares for the parameter which it fills
where its type is seen through that class. -/
theorem unbounded_argument_means_bounds_seen (s : Store) (c : ClassId) (decl : ClassDecl) (i : Nat) (param : TypeParam)
    (args lower : List Descriptor) (hc : s.get? c = some decl) (hparam : decl.params[i]? = some param)
    (hbounds : ∀ b ∈ param.bounds, b.vars = []) (harg : args[i]? = some (.wildcard lower [])) :
    (∀ target, (target.raw? = some c ∨ ∃ a, target = .bare a) →
      ∀ b b', s.isAssignable target (.generic c args) = .ok b →
        s.isAssignable target (.generic c (args.set i (.wildcard lower param.bounds))) = .ok b' → b = b') ∧
    ∀ a target view, target.raw? = some a → s.Below c a → s.asSupertype (.generic c args) a = .ok (some view) →
      (∀ b b', s.isAssignable target (.generic c args) = .ok b →
        s.isAssignable target (s.completed view) = .ok b' → b = b') ∧
      ∀ view', s.asSupertype (.generic c (args.set i (.wildcard lower param.bounds))) a = .ok (some view') →
        s.completed view == s.completed view' → ∀ b b', s.isAssignable target (.generic c args) = .ok b →
          s.isAssignable target (.generic c (args.set i (.wildcard lower param.bounds))) = .ok b' → b = b' := by
  rw [← settledBounds_eq hc hparam hbounds]
  constructor
  · rintro target (htarget | ⟨a, rfl⟩)
    · refine agree_isAssignable_of_takes (agree_takes_of_completed htarget rfl rfl .refl .refl (asSupertype_self rfl)
        (asSupertype_self rfl) ?_)
      rw [Descriptor.generic, Descriptor.generic, completed_set harg]
      exact BEq.rfl
    · exact agree_isAssignable_of_takes fun levels => (decides_takes_bare rfl).agree (decides_takes_bare rfl)
  · intro a target view htarget hbelow hview
    constructor
    · have hraw : (s.completed view).raw? = some a := (raw?_completed view).trans (reaches_of_asSupertype hview).1
      refine agree_isAssignable_of_takes (agree_takes_of_completed htarget rfl hraw hbelow .refl hview
        (asSupertype_self hraw) ?_)
      rw [completed_completed]
      exact BEq.rfl
    · intro view' hview' h
      exact agree_isAssignable_of_takes (agree_takes_of_completed htarget rfl rfl hbelow hbelow hview hview' h)

end Generics.Store

namespace Generics

/-- Sequences, those of numbers, and crates, which are for numbers too. -/
def crates : Store := .built
  [.register ⟨.ordinary, "Object", [], [], none⟩,
    .register ⟨.ordinary, "Number", [], [.bare ⟨1⟩], none⟩,
    .register ⟨.interface, "Sequence", [⟨"T", []⟩], [.bare ⟨1⟩], none⟩,
    .register ⟨.interface, "Numbers", [⟨"T", [.bare ⟨2⟩]⟩], [.generic ⟨3⟩ [.var ⟨.ofClass ⟨4⟩, "T"⟩]], none⟩,
    .register ⟨.ordinary, "Crate", [⟨"T", [.bare ⟨2⟩]⟩], [.generic ⟨4⟩ [.var ⟨.ofClass ⟨5⟩, "T"⟩]], none⟩,
    .setRoot ⟨1⟩]

/-- `Crate<?>` is told from `Crate<? extends Number>` neither as a `Crate` nor as `Numbers`, whose parameter has the
same bound. Seen as a `Sequence` it is no longer one of numbers. -/
theorem crates_told_apart :
    (∀ b, crates.isAssignable (.generic ⟨5⟩ [.extending (.bare ⟨2⟩)]) (.generic ⟨5⟩ [.wildcard [] []]) = .ok b →
      b = true) ∧
    (∀ b, crates.isAssignable (.generic ⟨4⟩ [.extending (.bare ⟨2⟩)]) (.generic ⟨5⟩ [.wildcard [] []]) = .ok b →
      b = true) ∧
    (∀ b, crates.isAssignable (.generic ⟨3⟩ [.extending (.bare ⟨2⟩)]) (.generic ⟨3⟩ [.extending (.bare ⟨1⟩)]) = .ok b →
      crates.isAssignable (.generic ⟨3⟩ [.extending (.bare ⟨2⟩)]) (.generic ⟨5⟩ [.wildcard [] []]) = .ok b) ∧
    crates.isAssignable (.generic ⟨3⟩ [.extending (.bare ⟨2⟩)]) (.generic ⟨5⟩ [.wildcard [] []]) = .ok false ∧
    crates.isAssignable (.generic ⟨3⟩ [.extending (.bare ⟨2⟩)]) (.generic ⟨5⟩ [.extending (.bare ⟨2⟩)]) = .ok true := by
  have hnumbers : crates.Below ⟨5⟩ ⟨4⟩ := (Store.isSubclass_eq_ok (b := true) (by rfl)).1 rfl
  have hsequence : crates.Below ⟨5⟩ ⟨3⟩ := (Store.isSubclass_eq_ok (b := true) (by rfl)).1 rfl
  have hplain : crates.isAssignable (.generic ⟨3⟩ [.extending (.bare ⟨2⟩)]) (.generic ⟨5⟩ [.wildcard [] []]) =
      .ok false := by rfl
  obtain ⟨hcrate, habove⟩ := crates.unbounded_argument_means_bounds_seen ⟨5⟩ _ 0 _ [.wildcard [] []] [] rfl rfl
    (by decide) rfl
  refine ⟨fun b hb => ?_, fun b hb => ?_, fun b hb => ?_, hplain, by rfl⟩
  · exact hcrate _ (.inl rfl) b true hb (by rfl)
  · exact (habove ⟨4⟩ _ (.generic ⟨4⟩ [.wildcard [] []]) rfl hnumbers (by rfl)).2
      (.generic ⟨4⟩ [.extending (.bare ⟨2⟩)]) (by rfl) (by rfl) b true hb (by rfl)
  · have hseen := (habove ⟨3⟩ _ (.generic ⟨3⟩ [.wildcard [] []]) rfl hsequence (by rfl)).1 false b hplain hb
    rw [← hseen]
    exact hplain

end Generics
