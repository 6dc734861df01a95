import Generics.Proofs.Composition
import Generics.Proofs.Mismatch

/-! # The check decides the relation

For regular types of a coherent store, an answer of the check says whether the first type covers the second
(`decides_isAssignable`). Rule by rule it is shown that a question is decided if those are that it asks; the
number of levels does not matter for the answer, only for whether there is one. -/

namespace Generics.Store
set_option autoImplicit false

open Result

variable {s : Store} {q : Questions Result}

/-- Both questions are decided for clean types. -/
structure Decided (s : Store) (q : Questions Result) : Prop where
  assignable : ∀ {t u}, s.Clean t → s.Clean u → Decides (s.Covers t u) (q.assignable t u)
  contains : ∀ {lower upper d}, ArgAll s.Clean (.wildcard lower upper) → ArgAll s.Clean d →
    Decides (s.Within s.Covers lower upper d) (q.contains ⟨lower, upper⟩ d)

/-! ## Arguments -/

theorem Coherent.decides_wildcardContains (hs : s.Coherent) {assignable : Descriptor → Descriptor → Result Bool}
    (hq : ∀ {t u}, s.Clean t → s.Clean u → Decides (s.Covers t u) (assignable t u))
    {lower upper : List Descriptor} {d : Descriptor} (hw : ArgAll s.Clean (.wildcard lower upper))
    (hd : ArgAll s.Clean d) :
    Decides (s.Within s.Covers lower upper d) (s.wildcardContains assignable ⟨lower, upper⟩ d) := by
  obtain ⟨hl, hu⟩ := hw
  have plain : s.Clean d → Decides ((∀ u ∈ upper, s.Covers u d) ∧ ∀ l ∈ lower, s.Covers d l)
      (upper.allM (fun u => assignable u d) >>= fun b =>
        if b then lower.allM fun l => assignable d l else .ok false) := fun hd =>
    (decides_allM fun u hmem => hq (hu u hmem) hd).and fun _ => decides_allM fun l hmem => hq hd (hl l hmem)
  cases d with
  | wildcard lower' upper' =>
    refine (decides_allM fun u hmem => decides_anyM fun u' hmem' => ?_).and fun _ =>
      decides_allM fun l hmem => decides_anyM fun l' hmem' => hq (hd.1 l' hmem') (hl l hmem)
    exact hq (hu u hmem) (hs.clean_impliedUpper (hu u hmem) hd.2 hmem')
  | bare c => exact plain hd
  | applied owner c args => exact plain hd
  | var v => exact plain hd

theorem covers_of_beq {t u : Descriptor} (h : t == u) : s.Covers t u := covers_iff_takes.2 (.same h)

theorem Tidy.withDeclaredUpper {owner : Option Descriptor} {c : ClassId} {args : List Descriptor}
    {decl : ClassDecl} (h : s.Tidy (.applied owner c args)) (hc : s.get? c = some decl) {i : Nat}
    {a : Descriptor} (ha : args[i]? = some a) : s.withDeclaredUpper c i a = .ok a := by
  unfold Store.withDeclaredUpper
  split
  · rename_i lower
    rw [require_eq_ok_iff.2 hc, ok_bind]
    have hnone : ((decl.params[i]?.map (·.bounds)).getD []).filter (!·.hasVars) = [] := by
      rw [List.filter_eq_nil_iff]
      intro bound hbound
      cases hp : decl.params[i]? with
      | none => simp [hp] at hbound
      | some param =>
        rw [hp] at hbound
        simp [h.bounded owner c args decl rfl hc i lower param ha hp bound hbound]
    dsimp only
    rw [hnone]
    rfl
  · rfl

theorem Decided.argumentFits (hq : s.Decided q) {owner : Option Descriptor} {c : ClassId}
    {args : List Descriptor} {decl : ClassDecl} (ht : s.Tidy (.applied owner c args))
    (hc : s.get? c = some decl) {i : Nat} {required actual : Descriptor} (ha : args[i]? = some actual)
    (hr : ArgAll s.Clean required) (hactual : ArgAll s.Clean actual) :
    Decides (s.Fits s.Covers required actual) (s.argumentFits q c i required actual) := by
  unfold Store.argumentFits
  split
  · rename_i lower upper
    rw [ofExcept_eq, ht.withDeclaredUpper hc ha, ok_bind]
    refine (hq.contains hr hactual).iff ⟨fun h => .inr ⟨lower, upper, rfl, h⟩, fun h => ?_⟩
    rcases h with heq | ⟨_, _, heq, h⟩
    · exact .of_beq (fun _ _ => covers_of_beq) heq
    · cases heq
      exact h
  · rename_i hw
    refine decides_ok ⟨fun h => .inl h, fun h => ?_⟩
    rcases h with heq | ⟨lower, upper, rfl, _⟩
    · exact heq
    · exact (hw lower upper rfl).elim

theorem Decided.firstMisfit? (hq : s.Decided q) {owner : Option Descriptor} {c : ClassId}
    {required actual : List Descriptor} {decl : ClassDecl} (ht : s.Tidy (.applied owner c actual))
    (hc : s.get? c = some decl) (hl : required.length = actual.length)
    (hr : ∀ r ∈ required, ArgAll s.Clean r) (ha : ∀ a ∈ actual, ArgAll s.Clean a) :
    Decides (List.Forall₂ (s.Fits s.Covers) required actual)
      (s.firstMisfit? q c required actual >>= fun found => .ok found.isNone) := by
  have hall : Decides (∀ x ∈ (required.zip actual).zipIdx, ¬ ¬ s.Fits s.Covers x.1.1 x.1.2)
      (s.firstMisfit? q c required actual >>= fun found => .ok found.isNone) := by
    refine decides_findM?_isNone fun ⟨⟨r, a⟩, i⟩ hmem => ?_
    obtain ⟨hri, hai⟩ := List.getElem?_zip_eq_some.1 (List.mem_zipIdx_iff_getElem?.1 hmem)
    exact (hq.argumentFits ht hc hai (hr r (List.mem_of_getElem? hri)) (ha a (List.mem_of_getElem? hai))).not
  refine hall.iff ?_
  rw [List.forall₂_iff_zip]
  constructor
  · intro h
    refine ⟨hl, fun {r a} hmem => ?_⟩
    obtain ⟨i, hi⟩ := List.getElem?_of_mem hmem
    exact Classical.not_not.1 (h ((r, a), i) (List.mem_zipIdx_iff_getElem?.2 hi))
  · rintro ⟨_, h⟩ ⟨⟨r, a⟩, i⟩ hmem
    exact Classical.not_not.2 (h (List.fst_mem_of_mem_zipIdx hmem))

/-! ## Applications -/

theorem Alike.congr {R : Descriptor → Descriptor → Prop} (hR : Respects R) {t w e : Descriptor}
    (h : s.Alike R t w) (hwe : w == e) : s.Alike R t e := by
  cases h with
  | bare hraw => exact .bare (by rw [← Descriptor.raw?_eq_of_beq hwe]; exact hraw)
  | applied ho ha =>
    obtain ⟨owner', args', rfl, howner, hargs⟩ := Descriptor.applied_beq_iff.1 hwe
    refine .applied ?_ (forall₂_congr (fun hr ha => Fits.congr hR hr ha) ha
      (List.forall₂_same.2 fun _ _ => BEq.rfl) hargs)
    intro o o' hown hown'
    subst hown hown'
    cases howner with
    | some heq => exact (ho _ _ rfl rfl).congr hR BEq.rfl heq

theorem Decided.ownersFit (hq : s.Decided q) {owner owner' : Option Descriptor}
    (ho : ∀ o, owner = some o → s.Clean o) (ho' : ∀ o, owner' = some o → s.Clean o) :
    Decides (∀ o o', owner = some o → owner' = some o' → s.Takes s.Covers o o')
      (Store.ownersFit q owner owner') := by
  cases owner with
  | none => exact decides_ok ⟨fun _ _ _ h => (by cases h), fun _ => rfl⟩
  | some o =>
    cases owner' with
    | none => exact decides_ok ⟨fun _ _ _ _ h => (by cases h), fun _ => rfl⟩
    | some o' =>
      refine (hq.assignable (ho o rfl) (ho' o' rfl)).iff (covers_iff_takes.trans ⟨fun h x y hx hy => ?_, fun h => ?_⟩)
      · cases hx
        cases hy
        exact h
      · exact h o o' rfl rfl

/-- Of the views of the source, the one that is found stands for all. -/
theorem Coherent.takes_applied_iff (hs : s.Coherent) {owner : Option Descriptor} {c : ClassId}
    {args : List Descriptor} {u e : Descriptor} (hu : s.Clean u) (hreach : s.Reaches u e)
    (he : e.raw? = some c) :
    s.Takes s.Covers (.applied owner c args) u ↔ s.Alike s.Covers (.applied owner c args) e := by
  constructor
  · intro h
    obtain ⟨w, hw, halike⟩ := hs.exists_alike rfl hu.wellFormed h
    refine halike.congr respects_covers (hs.view_unique hu hw hreach ?_)
    rw [he]
    cases halike with
    | applied => rfl
  · intro h
    cases h with
    | applied ho ha => exact .applied hreach ho ha

theorem Coherent.decides_applicationTakes (hs : s.Coherent) (hq : s.Decided q) {owner : Option Descriptor}
    {c : ClassId} {args : List Descriptor} {u : Descriptor} (ht : s.Clean (.applied owner c args))
    (hu : s.Clean u) :
    Decides (s.Takes s.Covers (.applied owner c args) u) (s.applicationTakes q owner c args u) := by
  obtain ⟨b, hb⟩ := hu.exists_raw?
  unfold applicationTakes
  simp only [ofExcept_eq, rawOf_eq_ok_iff.2 hb, ok_bind]
  refine Decides.bind fun sub hsub => ?_
  cases sub with
  | false =>
    refine decides_ok ⟨fun h => (by cases h), fun h => ?_⟩
    exact (isSubclass_eq_ok hsub).2 (hs.below_of_takes rfl hu.wellFormed hb h)
  | true =>
    refine Decides.bind fun view hview => ?_
    rw [viewAs, bind_eq_ok_iff] at hview
    obtain ⟨found, hfound, hview⟩ := hview
    cases found with
    | none => cases hview
    | some e =>
      obtain ⟨he, hreach⟩ := reaches_of_asSupertype hfound
      have hclean := hs.clean_reaches hu hreach
      have hopen : (∀ owner' args', e ≠ .applied owner' c args') →
          Decides (s.Takes s.Covers (.applied owner c args) u) (.ok false) := by
        intro hne
        refine decides_ok ⟨fun h => (by cases h), fun h => ?_⟩
        cases (hs.takes_applied_iff hu hreach he).1 h with
        | applied => exact (hne _ _ rfl).elim
      cases e with
      | bare c' =>
        cases hview
        exact hopen fun _ _ h => by cases h
      | applied owner' c' args' =>
        cases he
        cases hview
        obtain ⟨decl, hdecl⟩ := ht.wellFormed.declared rfl
        dsimp only
        split
        · exact decides_error _
        · rename_i hl
          have hargs := hq.firstMisfit? hclean.tidy hdecl (Decidable.not_not.1 hl)
            (argAll_of_leads fun e he => hs.clean_leads ht he)
            (argAll_of_leads fun e he => hs.clean_leads hclean he)
          have howners : Decides (∀ o o', owner = some o → owner' = some o' → s.Takes s.Covers o o')
              (ownersFit q owner owner') := hq.ownersFit
            (fun o ho => hs.clean_leads ht (by rw [ho]; exact .owner o c args))
            (fun o ho => hs.clean_leads hclean (by rw [ho]; exact .owner o c args'))
          have hboth := (howners.and fun _ => hargs).iff
            ⟨fun h => Alike.applied (c := c) h.1 h.2, fun h => by cases h with | applied ho ha => exact ⟨ho, ha⟩⟩
          exact hboth.iff (hs.takes_applied_iff hu hreach rfl).symm
      | var v => cases he
      | wildcard lower upper => cases he

/-! ## The rules together -/

theorem Coherent.decides_takes (hs : s.Coherent) (hq : s.Decided q) {t u : Descriptor} (ht : s.Clean t)
    (hu : s.Clean u) : Decides (s.Covers t u) (s.takes q t u) := by
  obtain ⟨b, hb⟩ := hu.exists_raw?
  refine Decides.iff ?_ covers_iff_takes.symm
  unfold takes
  split
  · rename_i heq
    exact decides_ok ⟨fun _ => .same heq, fun _ => rfl⟩
  split
  · exact absurd rfl (ht.tidy.notWildcard _ _)
  · cases hb
  · cases ht.exists_raw? with
    | intro _ h => cases h
  · cases hb
  · rename_i c _ _ _ _ _
    simp only [ofExcept_eq, rawOf_eq_ok_iff.2 hb, ok_bind]
    intro answer hanswer
    rw [isSubclass_eq_ok hanswer]
    exact ⟨fun h => .bare hb h, fun h => hs.below_of_takes rfl hu.wellFormed hb h⟩
  · exact hs.decides_applicationTakes hq ht hu

theorem Coherent.decided_questions (hs : s.Coherent) (p : Profile) (levels : Nat) :
    s.Decided (s.questions p id levels) := by
  induction levels with
  | zero =>
    constructor
    · intro t u _ _
      rw [assignable_questions_zero]
      exact decides_error _
    · intro lower upper d _ _
      rw [contains_questions_zero]
      exact decides_error _
  | succ levels ih =>
    constructor
    · intro t u ht hu
      rw [assignable_questions_succ]
      exact hs.decides_takes ih ht hu
    · intro lower upper d hw hd
      rw [contains_questions_succ]
      exact hs.decides_wildcardContains ih.assignable hw hd

theorem Coherent.decides_isAssignable (hs : s.Coherent) {t u : Descriptor} (ht : s.Clean t) (hu : s.Clean u) :
    Decides (s.Covers t u) (s.isAssignable t u) :=
  (hs.decided_questions .assignability _).assignable ht hu

end Generics.Store
