import Generics.Assignability.Check
import Generics.Proofs.WellFormed

/-! # A type that does not fit is no fault

Between well-formed types of a store whose declarations are well-formed, a check of assignability answers, or
says that it went too deep. Every rule is shown to ask about well-formed types only, so the levels can be gone
through by induction. That the view of the source through the target's class is never missing is where the two
walks up the hierarchy meet: the search for the class says that it is above, and then the walk finds it. -/

namespace Generics.Store
set_option autoImplicit false

open Result

/-- An answer, or a check that went too deep. -/
abbrev Answers (x : Result Bool) : Prop := Ensures Fault.IsTooDeep (fun _ => True) x

section Rules

variable {s : Store}

theorem Built.forall_impliedUpper (hb : s.Built) {P : Descriptor → Prop} (hbare : ∀ c, s.contains c → P (.bare c))
    {upper : List Descriptor} (hu : ∀ u ∈ upper, P u) : ∀ u ∈ s.impliedUpper upper, P u := by
  intro u hmem
  unfold impliedUpper at hmem
  split at hmem
  · obtain ⟨r, hr, rfl⟩ := List.mem_map.1 hmem
    exact hbare r (hb.contains_root (Option.mem_toList.1 hr))
  · exact hu u hmem

theorem Built.wellFormed_impliedUpper (hb : s.Built) {upper : List Descriptor}
    (hu : ∀ u ∈ upper, s.WellFormed u) : ∀ u ∈ s.impliedUpper upper, s.WellFormed u := by
  refine hb.forall_impliedUpper (fun c hc => ?_) hu
  obtain ⟨decl, hdecl⟩ := Option.isSome_iff_exists.1 hc
  exact .bare hdecl

theorem forall_boundsOf {P : Descriptor → Prop}
    (h : ∀ scope params, s.paramsOf? scope = some params → ∀ param ∈ params, ∀ bound ∈ param.bounds, P bound)
    (v : TypeVar) : ∀ bound ∈ s.boundsOf v, P bound := by
  intro bound hmem
  unfold boundsOf bounds? at hmem
  cases hp : s.paramsOf? v.scope with
  | none => simp [hp] at hmem
  | some params =>
    cases hf : findParam? params v.name with
    | none => simp [hp, hf] at hmem
    | some param =>
      simp only [hp, hf, Option.bind_eq_bind, Option.bind_some, Option.pure_def, Option.getD_some] at hmem
      exact h _ _ hp param (List.mem_of_find?_eq_some hf) bound hmem

theorem WellDeclared.wellFormed_boundsOf (hs : s.WellDeclared) (v : TypeVar) :
    ∀ bound ∈ s.boundsOf v, s.WellFormed bound :=
  forall_boundsOf (fun scope params hp param hparam bound hbound =>
    checkArity_eq_ok_iff.1 (hs.bounds scope params hp param hparam bound hbound)) v

theorem Built.answers_wildcardContains (hb : s.Built) {assignable : Descriptor → Descriptor → Result Bool}
    (hq : ∀ t d, s.WellFormed t → s.WellFormed d → Answers (assignable t d)) {w : Wildcard} {d : Descriptor}
    (hw : s.WellFormed w.toDescriptor) (hd : s.WellFormed d) : Answers (s.wildcardContains assignable w d) := by
  cases hw with
  | wildcard hwl hwu =>
    have plain : Answers (do
        if ← w.upper.allM fun u => assignable u d then w.lower.allM fun l => assignable d l
        else return false) := by
      refine (ensures_allM fun u hu => hq u d (hwu u hu) hd).bind fun b _ => ?_
      cases b with
      | false => exact trivial
      | true => exact ensures_allM fun l hl => hq d l hd (hwl l hl)
    cases hd with
    | @wildcard lower upper hl hu =>
      refine (ensures_allM fun u hmem => ensures_anyM fun u' hmem' =>
        hq u u' (hwu u hmem) (hb.wellFormed_impliedUpper hu u' hmem')).bind fun b _ => ?_
      cases b with
      | false => exact trivial
      | true => exact ensures_allM fun l hmem => ensures_anyM fun l' hmem' => hq l' l (hl l' hmem') (hwl l hmem)
    | bare hc => exact plain
    | applied hc hl ho ha => exact plain
    | var v => exact plain

theorem WellDeclared.ensures_withDeclaredUpper (hs : s.WellDeclared) {c : ClassId} {decl : ClassDecl}
    (hc : s.get? c = some decl) (index : Nat) {arg : Descriptor} (harg : s.WellFormed arg) :
    Ensures Fault.IsTooDeep s.WellFormed (s.withDeclaredUpper c index arg) := by
  unfold withDeclaredUpper
  split
  · rename_i lower
    rw [require_eq_ok_iff.2 hc, ok_bind]
    cases harg with
    | wildcard hl hu =>
      refine .wildcard hl fun u hmem => ?_
      have hmem := (List.mem_filter.1 hmem).1
      cases hp : decl.params[index]? with
      | none => simp [hp] at hmem
      | some param =>
        simp only [hp, Option.map_some, Option.getD_some] at hmem
        have hparams : s.paramsOf? (.ofClass c) = some decl.params := by simp [paramsOf?, hc]
        exact checkArity_eq_ok_iff.1 (hs.bounds _ _ hparams param (List.mem_of_getElem? hp) u hmem)
  · exact harg

/-- What is above a well-formed type is seen through its class, with owner and arguments that are
well-formed. -/
theorem ProperSupertypes.ensures_viewAs (hs : s.ProperSupertypes) {d : Descriptor} {c target : ClassId}
    (hd : s.WellFormed d) (hraw : d.raw? = some c) (hup : s.Below c target) :
    Ensures Fault.IsTooDeep (fun view => ∀ owner args, view = some (owner, args) →
      s.WellFormed (.applied owner target args)) (s.viewAs d target) := by
  have hn : d.raw?.isSome := by rw [hraw]; rfl
  unfold viewAs
  have hfound : ∀ found, s.asSupertype d target = .ok found → ∃ e, found = some e ∧ e.raw? = some target := by
    intro found h
    cases found with
    | none => exact (not_above_of_asSupertype hraw h hup).elim
    | some e => exact ⟨e, rfl, (reaches_of_asSupertype h).1⟩
  refine ((hs.ensures_asSupertype hd hn target).and hfound).bind fun found h => ?_
  obtain ⟨hwf, e, rfl, he⟩ := h
  cases e with
  | applied owner c' args =>
    intro owner' args' heq
    cases heq
    cases he
    exact hwf _ rfl
  | bare c' => exact fun _ _ heq => by cases heq
  | var v => exact fun _ _ heq => by cases heq
  | wildcard lower upper => exact fun _ _ heq => by cases heq

/-- Both questions are answered for well-formed types. -/
structure AnswersAll (s : Store) (q : Questions Result) : Prop where
  assignable : ∀ t d, s.WellFormed t → s.WellFormed d → Answers (q.assignable t d)
  contains : ∀ w d, s.WellFormed (Wildcard.toDescriptor w) → s.WellFormed d → Answers (q.contains w d)

variable {q : Questions Result}

theorem WellDeclared.answers_argumentFits (hs : s.WellDeclared) (hq : s.AnswersAll q) {c : ClassId}
    {decl : ClassDecl} (hc : s.get? c = some decl) (index : Nat) {required actual : Descriptor}
    (hr : s.WellFormed required) (ha : s.WellFormed actual) :
    Answers (s.argumentFits q c index required actual) := by
  unfold argumentFits
  split
  · rw [ofExcept_eq]
    exact (hs.ensures_withDeclaredUpper hc index ha).bind fun actual' ha' => hq.contains _ _ hr ha'
  · exact trivial

theorem WellDeclared.ensures_firstMisfit? (hs : s.WellDeclared) (hq : s.AnswersAll q) {c : ClassId}
    {decl : ClassDecl} (hc : s.get? c = some decl) {required actual : List Descriptor}
    (hr : ∀ d ∈ required, s.WellFormed d) (ha : ∀ d ∈ actual, s.WellFormed d) :
    Ensures Fault.IsTooDeep (fun _ => True) (s.firstMisfit? q c required actual) := by
  refine ensures_findM? fun ⟨⟨r, a⟩, index⟩ hmem => ?_
  obtain ⟨hmr, hma⟩ := List.of_mem_zip (List.fst_mem_of_mem_zipIdx hmem)
  exact (hs.answers_argumentFits hq hc index (hr r hmr) (ha a hma)).bind fun _ _ => trivial

theorem WellDeclared.answers_applicationTakes (hs : s.WellDeclared) (hq : s.AnswersAll q)
    {owner : Option Descriptor} {c below : ClassId} {args : List Descriptor} {source : Descriptor}
    (ht : s.WellFormed (.applied owner c args)) (hd : s.WellFormed source) (hraw : source.raw? = some below) :
    Answers (s.applicationTakes q owner c args source) := by
  obtain ⟨decl, hdecl⟩ := hd.declared hraw
  unfold applicationTakes
  simp only [ofExcept_eq, rawOf_eq_ok_iff.2 hraw, ok_bind]
  refine ((hs.ensures_isSubclass hdecl c).and fun _ => isSubclass_eq_ok).bind fun sub hsub => ?_
  cases sub with
  | false => exact trivial
  | true =>
    refine (hs.ensures_viewAs hd hraw (hsub.2.1 rfl)).bind fun view hview => ?_
    cases view with
    | none => exact trivial
    | some view =>
      obtain ⟨owner', args'⟩ := view
      cases ht with
      | @applied _ _ _ decl hc hl ho ha =>
        cases hview owner' args' rfl with
        | applied hc' hl' ho' ha' =>
          rw [hc] at hc'
          cases hc'
          have howners : Answers (ownersFit q owner owner') := by
            cases owner with
            | none => exact trivial
            | some o =>
              cases owner' with
              | none => exact trivial
              | some o' => exact hq.assignable o o' (ho o rfl) (ho' o' rfl)
          simp only [ne_eq, hl.symm.trans hl', not_true_eq_false, if_false]
          refine howners.bind fun fit _ => ?_
          cases fit with
          | false => exact trivial
          | true => exact (hs.ensures_firstMisfit? hq hc ha ha').bind fun _ _ => trivial

theorem WellDeclared.answers_takes (hs : s.WellDeclared) (hb : s.Built) (hq : s.AnswersAll q)
    {target source : Descriptor} (ht : s.WellFormed target) (hd : s.WellFormed source) :
    Answers (s.takes q target source) := by
  unfold takes
  split
  · exact trivial
  split
  · exact hb.answers_wildcardContains hq.assignable ht hd
  · rename_i v _ _
    exact ensures_anyM fun bound hmem => hq.assignable target bound ht (hs.wellFormed_boundsOf v bound hmem)
  · exact trivial
  · cases hd with
    | wildcard hl hu =>
      exact ensures_anyM fun u hmem => hq.assignable target u ht (hb.wellFormed_impliedUpper hu u hmem)
  · cases hraw : source.raw? with
    | none => cases source <;> simp_all [Descriptor.raw?]
    | some below =>
      obtain ⟨decl, hdecl⟩ := hd.declared hraw
      simp only [rawOf_eq_ok_iff.2 hraw, ofExcept_eq, ok_bind]
      exact hs.ensures_isSubclass hdecl _
  · cases hraw : source.raw? with
    | none => cases source <;> simp_all [Descriptor.raw?]
    | some below => exact hs.answers_applicationTakes hq ht hd hraw

end Rules

/-! ## Levels -/

section Levels

variable (s : Store) (p : Profile) (levels : Nat)

theorem assignable_questions_zero (t d : Descriptor) :
    (s.questions p (m := Result) id 0).assignable t d = .error p.tooDeep := by
  simp only [questions, assignableWithin]
  rfl

theorem contains_questions_zero (w : Wildcard) (d : Descriptor) :
    (s.questions p (m := Result) id 0).contains w d = .error p.tooDeep := by
  simp only [questions, containsWithin]
  rfl

theorem assignable_questions_succ (t d : Descriptor) :
    (s.questions p (m := Result) id (levels + 1)).assignable t d = s.takes (s.questions p id levels) t d := by
  simp only [questions, assignableWithin]
  rfl

theorem contains_questions_succ (w : Wildcard) (d : Descriptor) :
    (s.questions p (m := Result) id (levels + 1)).contains w d =
      s.wildcardContains (s.questions p (m := Result) id levels).assignable w d := by
  simp only [questions, containsWithin]
  rfl

end Levels

theorem WellDeclared.answersAll_questions {s : Store} (hs : s.WellDeclared) (hb : s.Built) (p : Profile)
    (levels : Nat) : s.AnswersAll (s.questions p id levels) := by
  induction levels with
  | zero =>
    constructor
    · intro t d _ _
      rw [assignable_questions_zero]
      exact trivial
    · intro w d _ _
      rw [contains_questions_zero]
      exact trivial
  | succ levels ih =>
    constructor
    · intro t d ht hd
      rw [assignable_questions_succ]
      exact hs.answers_takes hb ih ht hd
    · intro w d hw hd
      rw [contains_questions_succ]
      exact hb.answers_wildcardContains ih.assignable hw hd

/-- A check between well-formed types answers or goes too deep. -/
theorem isAssignable_answers_or_tooDeep (s : Store) (hb : s.Built) (hs : s.WellDeclared)
    (target source : Descriptor) (ht : s.checkArity target = .ok ()) (hd : s.checkArity source = .ok ()) :
    (∃ answer, s.isAssignable target source = .ok answer) ∨
      ∃ activity limit, s.isAssignable target source = .error (.depthExceeded activity limit) := by
  have h : Answers (s.isAssignable target source) :=
    (hs.answersAll_questions hb .assignability _).assignable target source
      (checkArity_eq_ok_iff.1 ht) (checkArity_eq_ok_iff.1 hd)
  cases hanswer : s.isAssignable target source with
  | ok answer => exact .inl ⟨answer, rfl⟩
  | error fault =>
    rw [hanswer] at h
    cases fault with
    | depthExceeded activity limit => exact .inr ⟨activity, limit, rfl⟩
    | _ => exact h.elim

/-- Two classes that are below each other, with an ever larger argument on the way, a class that is below
neither, and a class above all. -/
def loops : Store := built
  [.register ⟨.ordinary, "Top", [], [], none⟩,
    .register ⟨.ordinary, "Odd", [⟨"T", [.bare ⟨1⟩]⟩], [], none⟩,
    .register ⟨.ordinary, "Even", [⟨"T", []⟩], [.generic ⟨2⟩ [.generic ⟨3⟩ [.var ⟨.ofClass ⟨3⟩, "T"⟩]]], none⟩,
    .register ⟨.interface, "Leaf", [⟨"T", []⟩], [.bare ⟨1⟩], none⟩,
    .setSupertypes ⟨2⟩ [.generic ⟨3⟩ [.var ⟨.ofClass ⟨2⟩, "T"⟩]],
    .setMethodParams ⟨4⟩ "pick" [⟨"U", [.generic ⟨2⟩ [.wildcard [] []]]⟩],
    .setRoot ⟨1⟩]

theorem loops_wellDeclared : loops.WellDeclared := by
  apply wellDeclared_of_all <;> decide

theorem loops_isAssignable :
    loops.isAssignable (.generic ⟨2⟩ [.wildcard [] [.bare ⟨1⟩]]) (.var ⟨.ofMethod ⟨4⟩ "pick", "U"⟩) = .ok true ∧
      loops.isAssignable (.generic ⟨4⟩ [.bare ⟨1⟩]) (.generic ⟨2⟩ [.bare ⟨1⟩]) = .ok false ∧
      ((∃ answer, loops.isAssignable (.generic ⟨4⟩ [.bare ⟨1⟩]) (.generic ⟨2⟩ [.bare ⟨1⟩]) = .ok answer) ∨
        ∃ activity limit, loops.isAssignable (.generic ⟨4⟩ [.bare ⟨1⟩]) (.generic ⟨2⟩ [.bare ⟨1⟩]) =
          .error (.depthExceeded activity limit)) :=
  ⟨by rfl, by rfl,
    isAssignable_answers_or_tooDeep loops (built_built _) loops_wellDeclared _ _ (by rfl) (by rfl)⟩

end Generics.Store
