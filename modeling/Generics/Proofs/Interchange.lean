import Generics.Key.Box
import Generics.Key.Specificity
import Generics.Proofs.Casts

/-! # Types that are the same are interchangeable

Bounds of a wildcard are sets, so types that are the same may list them in another order or repeat some, at any
depth, and the check goes through its lists in order and stops early. It still gives types that are the same
the same answers: wherever it answers twice, the answers agree (`Consistent`). The walk up from the one type
mirrors that from the other, supertype by supertype and with the same count of visits (`agree_walkUp`), and
each rule asks about pairs that are the same in turn. -/

namespace Generics.Store
set_option autoImplicit false

open Result

variable {s : Store}

/-! ## Walks -/

/-- Both are nothing, or types that are the same. -/
abbrev SameFound (x y : Option Descriptor) : Prop := Option.Rel (· == ·) x y

theorem agree_apply {σ τ : Substitution} {d e : Descriptor} (hrel : σ.Rel (· == ·) τ) (h : d == e) :
    Agree (· == ·) (σ.apply d) (τ.apply e) := by
  intro x y hx hy
  rw [(Substitution.apply_eq_ok_iff.1 hx).1, (Substitution.apply_eq_ok_iff.1 hy).1]
  exact Descriptor.beq_subst h fun v _ => hrel v

theorem agree_seenFrom {view view' : Option Substitution} (supertype : Descriptor)
    (h : Option.Rel (Substitution.Rel (· == ·)) view view') :
    Agree SameFound (seenFrom view supertype) (seenFrom view' supertype) := by
  cases h with
  | none =>
    refine agree_ok ?_
    cases supertype.erase? with
    | none => exact .none
    | some d => exact .some BEq.rfl
  | @some σ τ hrel =>
    intro x y hx hy
    obtain ⟨d, hd, rfl⟩ := map_eq_ok_iff.1 hx
    obtain ⟨e, he, rfl⟩ := map_eq_ok_iff.1 hy
    exact .some (agree_apply hrel BEq.rfl d e hd he)

theorem agree_bindingsOf {d e : Descriptor} (h : d == e) :
    Agree (Substitution.Rel (· == ·)) (s.bindingsOf d) (s.bindingsOf e) := by
  intro σ τ hσ hτ
  obtain ⟨τ', hτ', hrel⟩ := bindingsFrom_congr h (Substitution.rel_empty _) hσ
  cases hτ'.symm.trans hτ
  exact hrel

theorem agree_some_bindingsOf {d e : Descriptor} (h : d == e) :
    Agree (Option.Rel (Substitution.Rel (· == ·))) (some <$> s.bindingsOf d) (some <$> s.bindingsOf e) := by
  intro x y hx hy
  obtain ⟨σ, hσ, rfl⟩ := map_eq_ok_iff.1 hx
  obtain ⟨τ, hτ, rfl⟩ := map_eq_ok_iff.1 hy
  exact .some (agree_bindingsOf h σ τ hσ hτ)

theorem agree_viewOf {d e : Descriptor} (h : d == e) (decl : ClassDecl) :
    Agree (Option.Rel (Substitution.Rel (· == ·))) (s.viewOf d decl) (s.viewOf e decl) := by
  cases d with
  | bare c =>
    rw [Descriptor.bare_beq_iff.1 h]
    simp only [viewOf]
    split
    · exact agree_some_bindingsOf BEq.rfl
    · exact agree_ok .none
  | applied owner c args =>
    obtain ⟨owner', args', rfl, _⟩ := Descriptor.applied_beq_iff.1 h
    exact agree_some_bindingsOf h
  | var v =>
    rw [Descriptor.var_beq_iff.1 h]
    exact agree_some_bindingsOf BEq.rfl
  | wildcard lower upper =>
    obtain ⟨lower', upper', rfl, _⟩ := Descriptor.wildcard_beq_iff.1 h
    exact agree_some_bindingsOf h

theorem agree_rawOf {d e : Descriptor} (h : d == e) : Agree (· = ·) (s.rawOf d) (s.rawOf e) := by
  intro c c' hc hc'
  rw [rawOf_eq_ok_iff] at hc hc'
  rw [Descriptor.raw?_eq_of_beq h, hc'] at hc
  exact (Option.some.inj hc).symm

/-- The walks up from types that are the same find types that are the same, after as many visits. -/
theorem agree_walkUp (target : ClassId) (levels : Nat) (path : List ClassId) {d e : Descriptor} (h : d == e)
    (n : Nat) :
    Agree (fun x y => SameFound x.1 y.1 ∧ x.2 = y.2) ((s.walkUp target levels path d).run n)
      ((s.walkUp target levels path e).run n) := by
  refine related_walkUp .agree (D := fun d e => d == e) (fun _ _ => agree_rawOf) ?_ target levels path h n
  intro d e c decl h _ _ view view' hview hview' supertype _
  exact agree_seenFrom supertype (agree_viewOf h decl view view' hview hview')

theorem agree_asSupertype {d e : Descriptor} (h : d == e) (target : ClassId) :
    Agree SameFound (s.asSupertype d target) (s.asSupertype e target) := by
  intro x y hx hy
  obtain ⟨n, hx⟩ := asSupertype_eq_ok_iff.1 hx
  obtain ⟨m, hy⟩ := asSupertype_eq_ok_iff.1 hy
  exact (agree_walkUp target maxHierarchyDepth [] h 0 _ _ hx hy).1

/-- Nothing on both sides, or owners and arguments that are the same. -/
abbrev SameView (x y : Option (Option Descriptor × List Descriptor)) : Prop :=
  Option.Rel (fun v w => SameFound v.1 w.1 ∧ List.Forall₂ (· == ·) v.2 w.2) x y

theorem agree_viewAs {d e : Descriptor} (h : d == e) (c : ClassId) :
    Agree SameView (s.viewAs d c) (s.viewAs e c) := by
  refine (agree_asSupertype h c).bind fun found found' hfound => ?_
  cases hfound with
  | none => exact agree_error _ _
  | @some x y hxy =>
    cases x with
    | applied owner c' args =>
      obtain ⟨owner', args', rfl, howner, hargs⟩ := Descriptor.applied_beq_iff.1 hxy
      exact agree_ok (.some ⟨howner, hargs⟩)
    | bare c' =>
      rw [Descriptor.bare_beq_iff.1 hxy]
      exact agree_ok .none
    | var v =>
      rw [Descriptor.var_beq_iff.1 hxy]
      exact agree_ok .none
    | wildcard lower upper =>
      obtain ⟨lower', upper', rfl, _⟩ := Descriptor.wildcard_beq_iff.1 hxy
      exact agree_ok .none

/-! ## Rules -/

section Sets

variable {p p' : Descriptor → Result Bool} {ds es : List Descriptor}

theorem agree_allM_sets (h : Descriptor.SameSets ds es)
    (hp : ∀ d e, (d == e) = true → Agree (· = ·) (p d) (p' e)) : Agree (· = ·) (ds.allM p) (es.allM p') := by
  refine agree_allM (fun d hd => ?_) fun e he => ?_
  · obtain ⟨e, he, heq⟩ := h.1 d hd
    exact ⟨e, he, hp d e heq⟩
  · obtain ⟨d, hd, heq⟩ := h.2 e he
    exact ⟨d, hd, hp d e heq⟩

theorem agree_anyM_sets (h : Descriptor.SameSets ds es)
    (hp : ∀ d e, (d == e) = true → Agree (· = ·) (p d) (p' e)) : Agree (· = ·) (ds.anyM p) (es.anyM p') := by
  refine agree_anyM (fun d hd => ?_) fun e he => ?_
  · obtain ⟨e, he, heq⟩ := h.1 d hd
    exact ⟨e, he, hp d e heq⟩
  · obtain ⟨d, hd, heq⟩ := h.2 e he
    exact ⟨d, hd, hp d e heq⟩

end Sets

/-- Answers about types that are the same agree. -/
def ConsistentOn (assignable : Descriptor → Descriptor → Result Bool) : Prop :=
  ∀ {t t' u u' : Descriptor}, (t == t') = true → (u == u') = true →
    Agree (· = ·) (assignable t u) (assignable t' u')

/-- Both questions are answered alike for types that are the same. -/
structure Consistent (q : Questions Result) : Prop where
  assignable : ConsistentOn q.assignable
  contains : ∀ {lower lower' upper upper' d d'}, Descriptor.SameSets lower lower' →
    Descriptor.SameSets upper upper' → (d == d') = true →
    Agree (· = ·) (q.contains ⟨lower, upper⟩ d) (q.contains ⟨lower', upper'⟩ d')

theorem agree_wildcardContains {assignable : Descriptor → Descriptor → Result Bool}
    (hq : ConsistentOn assignable) {lower lower' upper upper' : List Descriptor} {d d' : Descriptor}
    (hl : Descriptor.SameSets lower lower') (hu : Descriptor.SameSets upper upper') (hd : d == d') :
    Agree (· = ·) (s.wildcardContains assignable ⟨lower, upper⟩ d)
      (s.wildcardContains assignable ⟨lower', upper'⟩ d') := by
  have plain : Agree (· = ·)
      (upper.allM (fun u => assignable u d) >>= fun b =>
        if b then lower.allM fun l => assignable d l else .ok false)
      (upper'.allM (fun u => assignable u d') >>= fun b =>
        if b then lower'.allM fun l => assignable d' l else .ok false) :=
    (agree_allM_sets hu fun _ _ heq => hq heq hd).and (agree_allM_sets hl fun _ _ heq => hq hd heq)
  cases d with
  | wildcard lower₁ upper₁ =>
    obtain ⟨lower₂, upper₂, rfl, hl₁, hu₁⟩ := Descriptor.wildcard_beq_iff.1 hd
    exact (agree_allM_sets hu fun _ _ heq =>
        agree_anyM_sets (sameSets_impliedUpper hu₁) fun _ _ heq' => hq heq heq').and
      (agree_allM_sets hl fun _ _ heq => agree_anyM_sets hl₁ fun _ _ heq' => hq heq' heq)
  | bare c =>
    rw [Descriptor.bare_beq_iff.1 hd] at plain ⊢
    exact plain
  | applied owner c args =>
    obtain ⟨_, _, rfl, _⟩ := Descriptor.applied_beq_iff.1 hd
    exact plain
  | var v =>
    rw [Descriptor.var_beq_iff.1 hd] at plain ⊢
    exact plain

theorem agree_withDeclaredUpper (c : ClassId) (index : Nat) {a a' : Descriptor} (h : a == a') :
    Agree (fun x y => x == y) (s.withDeclaredUpper c index a) (s.withDeclaredUpper c index a') := by
  cases a with
  | wildcard lower upper =>
    obtain ⟨lower', upper', rfl, hl, hu⟩ := Descriptor.wildcard_beq_iff.1 h
    cases upper with
    | nil =>
      cases hu.eq_nil_iff.1 rfl
      refine (agree_refl (s.require c)).bind fun decl decl' heq => ?_
      cases heq
      exact agree_ok (Descriptor.wildcard_beq_iff.2 ⟨_, _, rfl, hl, .refl _⟩)
    | cons u upper =>
      cases upper' with
      | nil => cases hu.eq_nil_iff.2 rfl
      | cons u' upper' => exact agree_ok h
  | bare c' =>
    rw [Descriptor.bare_beq_iff.1 h]
    exact agree_ok BEq.rfl
  | applied owner c' args =>
    obtain ⟨_, _, rfl, _⟩ := Descriptor.applied_beq_iff.1 h
    exact agree_ok h
  | var v =>
    rw [Descriptor.var_beq_iff.1 h]
    exact agree_ok BEq.rfl

variable {q : Questions Result}

theorem Consistent.argumentFits (hq : Consistent q) (c : ClassId) (index : Nat) {r r' a a' : Descriptor}
    (hr : r == r') (ha : a == a') :
    Agree (· = ·) (s.argumentFits q c index r a) (s.argumentFits q c index r' a') := by
  have plain : Agree (· = ·) (.ok (r == a)) (.ok (r' == a')) :=
    agree_ok (by rw [BEq.congr_left hr, BEq.congr_right ha])
  cases r with
  | wildcard lower upper =>
    obtain ⟨lower', upper', rfl, hl, hu⟩ := Descriptor.wildcard_beq_iff.1 hr
    simp only [Store.argumentFits, ofExcept_eq]
    exact (agree_withDeclaredUpper c index ha).bind fun _ _ heq => hq.contains hl hu heq
  | bare c' =>
    rw [Descriptor.bare_beq_iff.1 hr] at plain ⊢
    exact plain
  | applied owner c' args =>
    obtain ⟨_, _, rfl, _⟩ := Descriptor.applied_beq_iff.1 hr
    exact plain
  | var v =>
    rw [Descriptor.var_beq_iff.1 hr] at plain ⊢
    exact plain

/-- No argument is a misfit on one side and not on the other if the arguments at each position fit on both or on
neither. -/
theorem agree_firstMisfit? {c : ClassId} {rs rs' as as' : List Descriptor} (hr : rs.length = rs'.length)
    (ha : as.length = as'.length)
    (h : ∀ (i : Nat) r a r' a', rs[i]? = some r → as[i]? = some a → rs'[i]? = some r' → as'[i]? = some a' →
      Agree (· = ·) (s.argumentFits q c i r a) (s.argumentFits q c i r' a')) :
    Agree (· = ·) (s.firstMisfit? q c rs as >>= fun found => .ok found.isNone)
      (s.firstMisfit? q c rs' as' >>= fun found => .ok found.isNone) := by
  have hnone : ∀ rs as, (s.firstMisfit? q c rs as >>= fun found => .ok found.isNone) =
      ((rs.zip as).zipIdx.anyM fun x => s.argumentFits q c x.2 x.1.1 x.1.2 >>= fun fits => .ok !fits) >>=
        fun misfit => .ok !misfit := by
    intro rs as
    rw [← findM?_isSome_eq, bind_assoc]
    congr 1
    funext found
    cases found <;> rfl
  have hfits : ∀ (i : Nat) r a r' a', rs[i]? = some r → as[i]? = some a → rs'[i]? = some r' → as'[i]? = some a' →
      Agree (· = ·) (s.argumentFits q c i r a >>= fun fits => .ok !fits)
        (s.argumentFits q c i r' a' >>= fun fits => .ok !fits) := fun i r a r' a' hri hai hri' hai' =>
    (h i r a r' a' hri hai hri' hai').bind fun _ _ heq => agree_ok (by rw [heq])
  rw [hnone, hnone]
  refine Agree.bind (agree_anyM ?_ ?_) fun _ _ heq => agree_ok (by rw [heq])
  · rintro ⟨⟨r, a⟩, i⟩ hmem
    obtain ⟨hri, hai⟩ := List.getElem?_zip_eq_some.1 (List.mem_zipIdx_iff_getElem?.1 hmem)
    obtain ⟨r', hri'⟩ := exists_getElem?_of_length_eq hr hri
    obtain ⟨a', hai'⟩ := exists_getElem?_of_length_eq ha hai
    exact ⟨((r', a'), i), List.mem_zipIdx_iff_getElem?.2 (List.getElem?_zip_eq_some.2 ⟨hri', hai'⟩),
      hfits i r a r' a' hri hai hri' hai'⟩
  · rintro ⟨⟨r', a'⟩, i⟩ hmem
    obtain ⟨hri', hai'⟩ := List.getElem?_zip_eq_some.1 (List.mem_zipIdx_iff_getElem?.1 hmem)
    obtain ⟨r, hri⟩ := exists_getElem?_of_length_eq hr.symm hri'
    obtain ⟨a, hai⟩ := exists_getElem?_of_length_eq ha.symm hai'
    exact ⟨((r, a), i), List.mem_zipIdx_iff_getElem?.2 (List.getElem?_zip_eq_some.2 ⟨hri, hai⟩),
      hfits i r a r' a' hri hai hri' hai'⟩

theorem Consistent.firstMisfit? (hq : Consistent q) (c : ClassId) {rs rs' as as' : List Descriptor}
    (hr : List.Forall₂ (· == ·) rs rs') (ha : List.Forall₂ (· == ·) as as') :
    Agree (· = ·) (s.firstMisfit? q c rs as >>= fun found => .ok found.isNone)
      (s.firstMisfit? q c rs' as' >>= fun found => .ok found.isNone) := by
  refine agree_firstMisfit? hr.length_eq ha.length_eq fun i r a r' a' hri hai hri' hai' => ?_
  obtain ⟨_, hri, hrr⟩ := exists_getElem?_of_forall₂ hr hri
  obtain ⟨_, hai, haa⟩ := exists_getElem?_of_forall₂ ha hai
  cases hri'.symm.trans hri
  cases hai'.symm.trans hai
  exact hq.argumentFits c i hrr haa

theorem Consistent.ownersFit (hq : Consistent q) {o₁ o₁' o₂ o₂' : Option Descriptor} (h₁ : SameFound o₁ o₁')
    (h₂ : SameFound o₂ o₂') : Agree (· = ·) (Store.ownersFit q o₁ o₂) (Store.ownersFit q o₁' o₂') := by
  cases h₁ with
  | none => exact agree_ok rfl
  | some h₁ =>
    cases h₂ with
    | none => exact agree_ok rfl
    | some h₂ => exact hq.assignable h₁ h₂

theorem Consistent.applicationTakes (hq : Consistent q) {owner owner' : Option Descriptor} (c : ClassId)
    {args args' : List Descriptor} {u u' : Descriptor} (ho : SameFound owner owner')
    (ha : List.Forall₂ (· == ·) args args') (hu : u == u') :
    Agree (· = ·) (s.applicationTakes q owner c args u) (s.applicationTakes q owner' c args' u') := by
  unfold Store.applicationTakes
  simp only [ofExcept_eq]
  refine (agree_rawOf hu).bind fun below below' heq => ?_
  cases heq
  refine (agree_refl (s.isSubclass below c)).bind fun sub sub' heq => ?_
  cases heq
  cases sub with
  | false => exact agree_ok rfl
  | true =>
    refine (agree_viewAs hu c).bind fun view view' hview => ?_
    cases hview with
    | none => exact agree_ok rfl
    | @some v w h =>
      obtain ⟨howner, hargs⟩ := h
      dsimp only
      rw [← ha.length_eq, ← hargs.length_eq]
      split
      · exact agree_error _ _
      · exact (hq.ownersFit ho howner).and (hq.firstMisfit? c ha hargs)

theorem Consistent.takes (hq : Consistent q) {t t' u u' : Descriptor} (ht : t == t') (hu : u == u') :
    Agree (· = ·) (s.takes q t u) (s.takes q t' u') := by
  have hsame : (t == u) = (t' == u') := by rw [BEq.congr_left ht, BEq.congr_right hu]
  have bounds : ∀ v, Agree (· = ·) ((s.boundsOf v).anyM fun bound => q.assignable t bound)
      ((s.boundsOf v).anyM fun bound => q.assignable t' bound) :=
    fun v => agree_anyM_sets (.refl _) fun _ _ heq => hq.assignable ht heq
  have uppers : ∀ {upper upper' : List Descriptor}, Descriptor.SameSets upper upper' →
      Agree (· = ·) ((s.impliedUpper upper).anyM fun u => q.assignable t u)
        ((s.impliedUpper upper').anyM fun u => q.assignable t' u) :=
    fun hup => agree_anyM_sets (sameSets_impliedUpper hup) fun _ _ heq => hq.assignable ht heq
  have subclass : ∀ c, Agree (· = ·) (s.rawOf u >>= fun below => s.isSubclass below c)
      (s.rawOf u' >>= fun below => s.isSubclass below c) := by
    refine fun c => (agree_rawOf hu).bind fun below below' heq => ?_
    cases heq
    exact agree_refl _
  unfold Store.takes
  rw [hsame]
  split
  · exact agree_ok rfl
  cases t with
  | wildcard lower upper =>
    obtain ⟨lower', upper', rfl, hl, hup⟩ := Descriptor.wildcard_beq_iff.1 ht
    exact agree_wildcardContains hq.assignable hl hup hu
  | bare c =>
    cases Descriptor.bare_beq_iff.1 ht
    cases u with
    | bare b =>
      cases Descriptor.bare_beq_iff.1 hu
      exact agree_refl _
    | applied owner b args =>
      obtain ⟨_, _, rfl, _⟩ := Descriptor.applied_beq_iff.1 hu
      simpa only [ofExcept_eq] using subclass c
    | var v =>
      cases Descriptor.var_beq_iff.1 hu
      exact bounds v
    | wildcard lower upper =>
      obtain ⟨_, _, rfl, _, hup⟩ := Descriptor.wildcard_beq_iff.1 hu
      exact uppers hup
  | applied owner c args =>
    obtain ⟨owner', args', rfl, howner, hargs⟩ := Descriptor.applied_beq_iff.1 ht
    cases u with
    | bare b =>
      cases Descriptor.bare_beq_iff.1 hu
      exact hq.applicationTakes c howner hargs hu
    | applied owner₁ b args₁ =>
      obtain ⟨_, _, rfl, _⟩ := Descriptor.applied_beq_iff.1 hu
      exact hq.applicationTakes c howner hargs hu
    | var v =>
      cases Descriptor.var_beq_iff.1 hu
      exact bounds v
    | wildcard lower upper =>
      obtain ⟨_, _, rfl, _, hup⟩ := Descriptor.wildcard_beq_iff.1 hu
      exact uppers hup
  | var v =>
    cases Descriptor.var_beq_iff.1 ht
    cases u with
    | bare b =>
      cases Descriptor.bare_beq_iff.1 hu
      exact agree_ok rfl
    | applied owner b args =>
      obtain ⟨_, _, rfl, _⟩ := Descriptor.applied_beq_iff.1 hu
      exact agree_ok rfl
    | var w =>
      cases Descriptor.var_beq_iff.1 hu
      exact bounds w
    | wildcard lower upper =>
      obtain ⟨_, _, rfl, _⟩ := Descriptor.wildcard_beq_iff.1 hu
      exact agree_ok rfl

theorem consistent_questions (s : Store) (p : Profile) (levels : Nat) : Consistent (s.questions p id levels) := by
  induction levels with
  | zero =>
    constructor
    · intro t t' u u' _ _
      rw [assignable_questions_zero, assignable_questions_zero]
      exact agree_error _ _
    · intro lower lower' upper upper' d d' _ _ _
      rw [contains_questions_zero, contains_questions_zero]
      exact agree_error _ _
  | succ levels ih =>
    constructor
    · intro t t' u u' ht hu
      rw [assignable_questions_succ, assignable_questions_succ]
      exact ih.takes ht hu
    · intro lower lower' upper upper' d d' hl hu hd
      rw [contains_questions_succ, contains_questions_succ]
      exact agree_wildcardContains ih.assignable hl hu hd

theorem agree_isAssignable (s : Store) : ConsistentOn s.isAssignable :=
  (s.consistent_questions .assignability _).assignable

end Generics.Store

namespace Generics

open Result

variable {s : Store}

/-! ## Keys and boxes -/

theorem Key.agree_accepts {a a' k k' : Key} (ha : a == a') (hk : k == k') :
    Agree (· = ·) (a.accepts s k) (a'.accepts s k') := by
  have hsame : (a == k) = (a' == k') := by rw [BEq.congr_left ha, BEq.congr_right hk]
  unfold Key.accepts
  rw [hsame]
  split
  · exact agree_ok rfl
  · exact s.agree_isAssignable ha hk

theorem Key.agree_moreSpecific {a a' k k' : Key} (ha : a == a') (hk : k == k') :
    Agree (· = ·) (a.moreSpecific s k) (a'.moreSpecific s k') := by
  have hsame : (a == k) = (a' == k') := by rw [BEq.congr_left ha, BEq.congr_right hk]
  unfold Key.moreSpecific
  rw [hsame]
  split
  · exact agree_ok rfl
  · refine (Key.agree_accepts hk ha).bind fun below below' heq => ?_
    cases heq
    cases below with
    | false => exact agree_ok rfl
    | true => exact (Key.agree_accepts ha hk).bind fun _ _ heq => agree_ok (by rw [heq])

/-- Types that are the same are assignable to and from the same types, and equal keys accept the same keys, are more
specific than the same ones and cast the same boxes. -/
theorem same_types_same_answers (s : Store) :
    (∀ t t' u u' : Descriptor, t == t' → u == u' →
      ∀ b b', s.isAssignable t u = .ok b → s.isAssignable t' u' = .ok b' → b = b') ∧
    ∀ a a' k k' : Key, a == a' → k == k' →
      (∀ b b', a.accepts s k = .ok b → a'.accepts s k' = .ok b' → b = b') ∧
      (∀ b b', a.moreSpecific s k = .ok b → a'.moreSpecific s k' = .ok b' → b = b') ∧
      ∀ (α : Type) (value : α) (box : Box α), (Box.mk k value).cast s a = .ok box →
        (∀ required actual, (Box.mk k' value).cast s a' ≠ .error (.castRefused required actual)) ∧
        ∀ box', (Box.mk k' value).cast s a' = .ok box' → box.key == box'.key ∧ box.value = box'.value := by
  refine ⟨fun t t' u u' ht hu b b' hb hb' => s.agree_isAssignable ht hu b b' hb hb', ?_⟩
  intro a a' k k' ha hk
  refine ⟨Key.agree_accepts ha hk, Key.agree_moreSpecific ha hk, ?_⟩
  intro α value box hcast
  obtain ⟨rfl, haccepts⟩ := Box.cast_eq_ok_iff.1 hcast
  constructor
  · intro required actual hrefused
    cases Key.agree_accepts ha hk true false haccepts (Box.accepts_of_cast_refused hrefused)
  · intro box' hcast'
    obtain ⟨rfl, _⟩ := Box.cast_eq_ok_iff.1 hcast'
    exact ⟨ha, rfl⟩

/-- `Sequence<? extends Sequence<? extends ..>>` with these bounds inside. -/
def sequencesKey (bounds : List Descriptor) : Key :=
  shapesKey ⟨5⟩ [.extending (.generic ⟨5⟩ [.wildcard [] bounds])]

/-- `Sequence<NumberBox<? extends ..>>` with these bounds inside. -/
def boxesKey (bounds : List Descriptor) : Key := shapesKey ⟨5⟩ [.generic ⟨7⟩ [.wildcard [] bounds]]

/-- Sequences of sequences of numbers accept sequences of boxes of integers, and still do not refuse them when the
bounds are turned round and repeated. -/
theorem shapes_interchange :
    sequencesKey [.bare ⟨2⟩, .bare ⟨1⟩] == sequencesKey [.bare ⟨1⟩, .bare ⟨2⟩, .bare ⟨1⟩] ∧
      boxesKey [.bare ⟨3⟩, .bare ⟨2⟩] == boxesKey [.bare ⟨2⟩, .bare ⟨3⟩, .bare ⟨3⟩] ∧
      (sequencesKey [.bare ⟨2⟩, .bare ⟨1⟩]).accepts shapes (boxesKey [.bare ⟨3⟩, .bare ⟨2⟩]) = .ok true ∧
      (sequencesKey [.bare ⟨1⟩, .bare ⟨2⟩, .bare ⟨1⟩]).accepts shapes
        (boxesKey [.bare ⟨2⟩, .bare ⟨3⟩, .bare ⟨3⟩]) ≠ .ok false := by
  have ha : sequencesKey [.bare ⟨2⟩, .bare ⟨1⟩] == sequencesKey [.bare ⟨1⟩, .bare ⟨2⟩, .bare ⟨1⟩] := by rfl
  have hk : boxesKey [.bare ⟨3⟩, .bare ⟨2⟩] == boxesKey [.bare ⟨2⟩, .bare ⟨3⟩, .bare ⟨3⟩] := by rfl
  have haccepts : (sequencesKey [.bare ⟨2⟩, .bare ⟨1⟩]).accepts shapes (boxesKey [.bare ⟨3⟩, .bare ⟨2⟩]) =
      .ok true := by rfl
  refine ⟨ha, hk, haccepts, fun hno => ?_⟩
  cases ((same_types_same_answers shapes).2 _ _ _ _ ha hk).1 true false haccepts hno

end Generics
