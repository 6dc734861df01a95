import Generics.Proofs.Variance

/-! # Two types seen through a class above both

One type takes another, and both are seen through a class further up. If the wider one is an application of its class,
then the narrower one is seen through that class as an application whose arguments fit (`exists_fitting_view`), and
what stands in the two views further up is one and the same type of the class's parameters, with the arguments of
either put in (`exists_common_view`). If the wider one leaves its arguments open, its view does so too, or the two
views are the same (`exists_view_of_bare`).

The arguments that the two types have for a parameter need not be the same. They are compared with the bounds of the
parameter in mind, and `fits_elsewhere` says what is left of that in other places. -/

namespace Generics.Store
set_option autoImplicit false

open Result

variable {s : Store}

/-! ## Answers read back -/

theorem within_of_wildcardContains {assignable : Descriptor → Descriptor → Result Bool}
    {lower upper : List Descriptor} {d : Descriptor}
    (h : s.wildcardContains assignable ⟨lower, upper⟩ d = .ok true) :
    s.Within (fun t u => assignable t u = .ok true) lower upper d := by
  have both : ∀ {x y : Result Bool}, (x >>= fun b => if b then y else .ok false) = .ok true →
      x = .ok true ∧ y = .ok true := by
    intro x y hxy
    obtain ⟨b, hx, hy⟩ := bind_eq_ok_iff.1 hxy
    cases b with
    | true => exact ⟨hx, hy⟩
    | false => cases hy
  have plain : (upper.allM (fun u => assignable u d) >>= fun b =>
        if b then lower.allM fun l => assignable d l else .ok false) = .ok true →
      (∀ u ∈ upper, assignable u d = .ok true) ∧ ∀ l ∈ lower, assignable d l = .ok true := fun hd =>
    ⟨allM_eq_true_iff.1 (both hd).1, allM_eq_true_iff.1 (both hd).2⟩
  cases d with
  | wildcard lower' upper' =>
    obtain ⟨hupper, hlower⟩ := both h
    exact ⟨fun u hu => exists_of_anyM_eq_true (allM_eq_true_iff.1 hupper u hu),
      fun l hl => exists_of_anyM_eq_true (allM_eq_true_iff.1 hlower l hl)⟩
  | bare c => exact plain h
  | applied owner c args => exact plain h
  | var v => exact plain h

theorem fitsAt_of_argumentFits {levels : Nat} {c : ClassId} {i : Nat} {required actual : Descriptor}
    (h : s.argumentFits (s.asks levels) c i required actual = .ok true) : s.FitsAt s.Grants c i required actual := by
  unfold argumentFits at h
  split at h
  · rename_i lower upper
    refine .inr ⟨lower, upper, rfl, fun bounded hbounded => ?_⟩
    rw [ofExcept_eq, hbounded, ok_bind] at h
    cases levels with
    | zero =>
      rw [contains_questions_zero] at h
      cases h
    | succ levels =>
      rw [contains_questions_succ] at h
      exact (within_of_wildcardContains h).mono fun _ _ => grants_of_eq_ok
  · exact .inl (Except.ok.inj h)

theorem argumentFits_of_firstMisfit? {q : Questions Result} {c : ClassId} {args args' : List Descriptor}
    (h : s.firstMisfit? q c args args' = .ok none) (i : Nat) {r a : Descriptor} (hr : args[i]? = some r)
    (ha : args'[i]? = some a) : s.argumentFits q c i r a = .ok true := by
  unfold firstMisfit? at h
  have hnone : ((args.zip args').zipIdx.anyM fun x => s.argumentFits q c x.2 x.1.1 x.1.2 >>= fun fits => .ok !fits) =
      .ok false := by
    rw [← findM?_isSome_eq]
    exact bind_eq_ok_iff.2 ⟨none, h, rfl⟩
  have hmem : ((r, a), i) ∈ (args.zip args').zipIdx :=
    List.mem_zipIdx_iff_getElem?.2 (List.getElem?_zip_eq_some.2 ⟨hr, ha⟩)
  obtain ⟨fits, hfits, hno⟩ := bind_eq_ok_iff.1 (anyM_eq_false_iff.1 hnone _ hmem)
  cases fits with
  | true => exact hfits
  | false => cases hno

theorem asSupertype_of_viewAs {d : Descriptor} {c : ClassId} {owner : Option Descriptor} {args : List Descriptor}
    (h : s.viewAs d c = .ok (some (owner, args))) : s.asSupertype d c = .ok (some (.applied owner c args)) := by
  rw [viewAs, bind_eq_ok_iff] at h
  obtain ⟨found, hfound, h⟩ := h
  cases found with
  | none => cases h
  | some e =>
    have hraw := (reaches_of_asSupertype hfound).1
    cases e with
    | applied owner' c' args' =>
      cases hraw
      cases h
      exact hfound
    | bare c' => cases h
    | var v => cases h
    | wildcard lower upper => cases h

theorem reaches_of_viewAs {d : Descriptor} {c : ClassId} {owner : Option Descriptor} {args : List Descriptor}
    (h : s.viewAs d c = .ok (some (owner, args))) : s.Reaches d (.applied owner c args) :=
  (reaches_of_asSupertype (asSupertype_of_viewAs h)).2

theorem view_of_applicationTakes {q : Questions Result} {owner : Option Descriptor} {c : ClassId}
    {args : List Descriptor} {d : Descriptor} (h : s.applicationTakes q owner c args d = .ok true) :
    ∃ owner' args', s.viewAs d c = .ok (some (owner', args')) ∧ s.firstMisfit? q c args args' = .ok none := by
  unfold applicationTakes at h
  simp only [ofExcept_eq] at h
  obtain ⟨below, _, h⟩ := bind_eq_ok_iff.1 h
  obtain ⟨isBelow, _, h⟩ := bind_eq_ok_iff.1 h
  cases isBelow with
  | false => cases h
  | true =>
    obtain ⟨view, hview, h⟩ := bind_eq_ok_iff.1 h
    cases view with
    | none => cases h
    | some view =>
      obtain ⟨owner', args'⟩ := view
      refine ⟨owner', args', hview, ?_⟩
      dsimp only at h
      split at h
      · cases h
      · obtain ⟨fit, _, h⟩ := bind_eq_ok_iff.1 h
        cases fit with
        | false => cases h
        | true =>
          obtain ⟨found, hfound, h⟩ := bind_eq_ok_iff.1 h
          cases found with
          | none => exact hfound
          | some misfit => cases h

theorem takes_applied {q : Questions Result} {owner : Option Descriptor} {c b : ClassId} {args : List Descriptor}
    {d : Descriptor} (hd : d.raw? = some b) :
    s.takes q (.applied owner c args) d =
      if Descriptor.applied owner c args == d then .ok true else s.applicationTakes q owner c args d := by
  cases d with
  | applied owner' c' args' => rfl
  | bare c' => rfl
  | var v => cases hd
  | wildcard lower upper => cases hd

/-- What an application takes is seen through its class as an application whose arguments fit. -/
theorem exists_fitting_view {levels : Nat} {owner : Option Descriptor} {c : ClassId} {args : List Descriptor}
    {d : Descriptor} (hd : d.raw?.isSome) (h : (s.asks levels).assignable (.applied owner c args) d = .ok true) :
    ∃ owner' args', s.Reaches d (.applied owner' c args') ∧
      ∀ (i : Nat) r a, args[i]? = some r → args'[i]? = some a → s.FitsAt s.Grants c i r a := by
  cases levels with
  | zero =>
    rw [assignable_questions_zero] at h
    cases h
  | succ levels =>
    obtain ⟨b, hb⟩ := Option.isSome_iff_exists.1 hd
    rw [assignable_questions_succ, takes_applied hb] at h
    split at h
    · rename_i heq
      obtain ⟨owner', args', rfl, _, hargs⟩ := Descriptor.applied_beq_iff.1 heq
      refine ⟨owner', args', .refl, fun i r a hr ha => ?_⟩
      obtain ⟨a', ha', heq⟩ := exists_getElem?_of_forall₂ hargs hr
      rw [ha] at ha'
      cases ha'
      exact .inl heq
    · obtain ⟨owner', args', hview, hnone⟩ := view_of_applicationTakes h
      exact ⟨owner', args', reaches_of_viewAs hview, fun i r a hr ha =>
        fitsAt_of_argumentFits (argumentFits_of_firstMisfit? hnone i hr ha)⟩

theorem decides_takes_bare {q : Questions Result} {a b : ClassId} {d : Descriptor} (hd : d.raw? = some b) :
    Decides (s.Below b a) (s.takes q (.bare a) d) := by
  unfold takes
  split
  · rename_i heq
    cases Descriptor.bare_beq_iff.1 heq
    cases hd
    exact decides_ok (iff_of_true rfl .refl)
  · have hsub : Decides (s.Below b a) (s.rawOf d >>= fun below => s.isSubclass below a) := by
      rw [rawOf_eq_ok_iff.2 hd, ok_bind]
      exact fun _ => isSubclass_eq_ok
    cases d with
    | bare c => simpa only [ofExcept_eq] using hsub
    | applied owner c args => simpa only [ofExcept_eq] using hsub
    | var v => cases hd
    | wildcard lower upper => cases hd

theorem below_of_bare_takes {levels : Nat} {c b : ClassId} {d : Descriptor} (hd : d.raw? = some b)
    (h : (s.asks levels).assignable (.bare c) d = .ok true) : s.Below b c := by
  cases levels with
  | zero =>
    rw [assignable_questions_zero] at h
    cases h
  | succ levels =>
    rw [assignable_questions_succ] at h
    exact (decides_takes_bare hd true h).1 rfl

theorem below_of_applicationTakes {q : Questions Result} {owner : Option Descriptor} {b c : ClassId}
    {args : List Descriptor} {d : Descriptor} (hd : d.raw? = some b)
    (h : s.applicationTakes q owner c args d = .ok true) : s.Below b c := by
  unfold applicationTakes at h
  simp only [ofExcept_eq, rawOf_eq_ok_iff.2 hd, ok_bind] at h
  obtain ⟨isBelow, hbelow, h⟩ := bind_eq_ok_iff.1 h
  cases isBelow with
  | true => exact (isSubclass_eq_ok hbelow).1 rfl
  | false => cases h

/-- What a type with a class takes is of a class below. -/
theorem below_of_assignable {levels : Nat} {t d : Descriptor} {b c : ClassId} (ht : t.raw? = some c)
    (hd : d.raw? = some b) (h : (s.asks levels).assignable t d = .ok true) : s.Below b c := by
  cases t with
  | bare c' =>
    cases ht
    exact below_of_bare_takes hd h
  | applied owner c' args =>
    cases ht
    cases levels with
    | zero =>
      rw [assignable_questions_zero] at h
      cases h
    | succ levels =>
      rw [assignable_questions_succ, takes_applied hd] at h
      split at h
      · rename_i hsame
        have hraw := Descriptor.raw?_eq_of_beq hsame
        rw [hd] at hraw
        cases hraw
        exact .refl
      · exact below_of_applicationTakes hd h
  | var v => cases ht
  | wildcard lower upper => cases ht

/-! ## Views further up -/

/-- A view that is not left open binds the parameters of its class, and to types whose variables are those of the type
seen. -/
theorem OwnSupertypes.closesOver_of_reaches {P : TypeVar → Prop} (ho : s.OwnSupertypes) {d e : Descriptor}
    {c : ClassId} {decl : ClassDecl} {σ : Substitution} {v : TypeVar} (hd : ∀ w ∈ d.vars, P w) (h : s.Reaches d e)
    (hraw : e.raw? = some c) (hopen : e ≠ .bare c) (hσ : s.bindingsOf e = .ok σ) (hc : s.get? c = some decl)
    (hv : v ∈ decl.ownVars c) : σ.ClosesOver P v := by
  cases e with
  | bare c' =>
    cases hraw
    exact (hopen rfl).elim
  | applied owner c' args =>
    cases hraw
    exact closesOver_bindingsFrom (ho.forall_vars_reaches hd h) hσ (.inr ⟨c, decl, .here owner args, hc, hv⟩)
  | var w => cases hraw
  | wildcard lower upper => cases hraw

theorem forall_vars_template {c : ClassId} {decl : ClassDecl} {t : Descriptor} (hc : s.get? c = some decl)
    (ht : s.template c = .ok t) : ∀ v ∈ t.vars, v ∈ decl.ownVars c := by
  by_cases hp : decl.params = []
  · rw [template, require_eq_ok_iff.2 hc, ok_bind, if_pos (List.isEmpty_iff.2 hp)] at ht
    cases ht
    simp [Descriptor.vars]
  · rw [template_eq hc hp] at ht
    cases ht
    simp [Descriptor.generic, Descriptor.vars, Descriptor.ownerVars_eq, Descriptor.listVars_eq]

/-- What an application is seen as through a class leaves the arguments open, or has those that the class itself is
seen with, with the arguments of the application put in. -/
theorem Coherent.exists_generic_view (hs : s.Coherent) {owner : Option Descriptor} {c b : ClassId}
    {args : List Descriptor} {t view : Descriptor} {decl : ClassDecl} {σ : Substitution} (ht : s.template c = .ok t)
    (hd : s.WellFormed (.applied owner c args)) (hk : ∀ y, s.Reaches (.applied owner c args) y → y.KeepsOwn)
    (hσ : s.bindingsOf (.applied owner c args) = .ok σ) (h : s.Reaches (.applied owner c args) view)
    (hraw : view.raw? = some b) (hb : s.get? b = some decl) (hparams : decl.params ≠ []) :
    ∃ g τ, s.Reaches t g ∧ g.raw? = some b ∧ s.bindingsOf g = .ok τ ∧ (view = .bare b ↔ g = .bare b) ∧
      (view ≠ .bare b → ∀ σ', s.bindingsOf view = .ok σ' →
        ∀ v ∈ decl.ownVars b, ∃ a, τ.get? v = some a ∧ σ'.get? v = some (a.subst σ)) := by
  rcases Relation.ReflTransGen.cases_head h with rfl | ⟨x, hx, hxe⟩
  · cases hraw
    obtain ⟨t', τ, ht', _, htraw, htopen, hτ, hvar⟩ := exists_template hb
    rw [ht] at ht'
    cases ht'
    have hne : t ≠ .bare c := fun heq => hparams (htopen heq)
    refine ⟨t, τ, .refl, htraw, hτ, ⟨fun heq => (by cases heq), fun heq => (hne heq).elim⟩, fun _ σ' hσ' v hv => ?_⟩
    rw [hσ] at hσ'
    cases hσ'
    obtain ⟨i, _, hget⟩ := exists_argument hb hv
    obtain ⟨a, _, ha⟩ := hget owner args σ (hk _ .refl) hσ (hd.arity_eq hb)
    exact ⟨.var v, hvar v hv, by rw [Descriptor.subst, ha]; rfl⟩
  · obtain ⟨g, hg, hgraw, rfl⟩ := hs.reaches_template ht hd hk hσ hx hxe
    rw [raw?_of_subst hgraw] at hraw
    obtain ⟨declc, hc⟩ := hd.declared rfl
    obtain ⟨t', _, ht', htwf, _⟩ := exists_template hc
    rw [ht] at ht'
    cases ht'
    have hgwf := hs.wellFormed_reaches htwf hg
    obtain ⟨τ, hτ, -⟩ := hgwf.bindingsOf
    refine ⟨g, τ, hg, hraw, hτ, ?_⟩
    cases g with
    | bare b' =>
      cases hraw
      rw [Descriptor.subst]
      exact ⟨Iff.rfl, fun hopen => (hopen rfl).elim⟩
    | applied owner' b' args' =>
      cases hraw
      refine ⟨by simp [Descriptor.subst], fun _ σ' hσ' v hv => ?_⟩
      have hkview := hk _ h
      have hkg : (Descriptor.applied owner' b args').KeepsOwn := by
        rintro o c' args'' heq hbinds
        cases heq
        exact hkview (o.subst σ) b _ rfl (hbinds.subst σ)
      rw [Descriptor.subst, Descriptor.substOwner_eq, Descriptor.substList_eq] at hσ' hkview
      obtain ⟨i, _, hget⟩ := exists_argument hb hv
      obtain ⟨a, ha, hτv⟩ := hget owner' args' τ hkg hτ (hgwf.arity_eq hb)
      obtain ⟨a', ha', hσv⟩ := hget _ _ σ' hkview hσ' (by rw [List.length_map]; exact hgwf.arity_eq hb)
      rw [List.getElem?_map, ha] at ha'
      cases ha'
      exact ⟨a, hτv, hσv⟩
    | var v => cases hraw
    | wildcard lower upper => cases hraw

/-- The views of two applications of one class, the second being what a narrower type is seen as: both are a view from
the parameters of their class, with the arguments of either put in. -/
theorem Coherent.exists_common_view (hs : s.Coherent) {owner owner' : Option Descriptor} {c b : ClassId}
    {args args' : List Descriptor} {d view view' : Descriptor} {decl : ClassDecl} {σ σ' τ τ' : Substitution}
    (hd : s.WellFormed (.applied owner c args)) (hk : ∀ y, s.Reaches (.applied owner c args) y → y.KeepsOwn)
    (hd' : s.WellFormed d) (hk' : ∀ y, s.Reaches d y → y.KeepsOwn) (hseen : s.Reaches d (.applied owner' c args'))
    (hσ : s.bindingsOf (.applied owner c args) = .ok σ) (hσ' : s.bindingsOf (.applied owner' c args') = .ok σ')
    (h : s.Reaches (.applied owner c args) view) (h' : s.Reaches d view') (hraw : view.raw? = some b)
    (hraw' : view'.raw? = some b) (hopen : view ≠ .bare b) (hτ : s.bindingsOf view = .ok τ)
    (hτ' : s.bindingsOf view' = .ok τ') (hb : s.get? b = some decl) (hparams : decl.params ≠ []) :
    ∃ t g ρ, s.template c = .ok t ∧ s.Reaches t g ∧ g.raw? = some b ∧ g ≠ .bare b ∧ s.bindingsOf g = .ok ρ ∧
      ∀ x : Descriptor, (∀ v ∈ x.vars, v ∈ decl.ownVars b) →
        x.subst τ = (x.subst ρ).subst σ ∧ x.subst τ' == (x.subst ρ).subst σ' := by
  have hwf' := hs.wellFormed_reaches hd' hseen
  have hkeeps' : ∀ y, s.Reaches (.applied owner' c args') y → y.KeepsOwn := fun y hy => hk' y (hseen.trans hy)
  obtain ⟨declc, hc⟩ := hd.declared rfl
  obtain ⟨t, _, ht, _⟩ := exists_template hc
  obtain ⟨b', hb', habove⟩ := h.above hs.nominal (c := c) rfl
  rw [hraw] at hb'
  cases hb'
  obtain ⟨w, hw, hwraw⟩ := hs.exists_reaches hwf' rfl habove
  have hsame : view' == w := hs.reaches_unique hd' hk' h' (hseen.trans hw) (hraw'.trans hwraw.symm)
  obtain ⟨g, ρ, hg, hgraw, hρ, hbare, hparts⟩ := hs.exists_generic_view ht hd hk hσ h hraw hb hparams
  obtain ⟨g', ρ', hg', hgraw', hρ', hbare', hparts'⟩ := hs.exists_generic_view ht hwf' hkeeps' hσ' hw hwraw hb hparams
  have hshape : g == g' := hs.oneShape c t (.inr ht) g g' hg hg' (hgraw.trans hgraw'.symm)
  have hwopen : w ≠ .bare b := by
    intro heq
    rw [hbare'.1 heq] at hshape
    exact hopen (hbare.2 (Descriptor.bare_beq_iff.1 (BEq.symm hshape)))
  refine ⟨t, g, ρ, ht, hg, hgraw, fun heq => hopen (hbare.2 heq), hρ, fun x hx => ⟨?_, ?_⟩⟩
  · exact (Descriptor.subst_subst fun v hv => hparts hopen τ hτ v (hx v hv)).symm
  · obtain ⟨τw, hτw, hrel⟩ := bindingsFrom_congr hsame (Substitution.rel_empty _) hτ'
    obtain ⟨ρ'', hρ'', hrel'⟩ := bindingsFrom_congr hshape (Substitution.rel_empty _) hρ
    have hρeq : ρ'' = ρ' := Except.ok.inj (hρ''.symm.trans hρ')
    subst hρeq
    have hlast : (x.subst ρ'').subst σ' = x.subst τw :=
      Descriptor.subst_subst fun v hv => hparts' hwopen τw hτw v (hx v hv)
    have hsubst : x.subst ρ == x.subst ρ'' := Descriptor.beq_subst BEq.rfl fun v _ => hrel' v
    refine BEq.trans (Descriptor.beq_subst BEq.rfl fun v _ => hrel v) ?_
    rw [← hlast]
    exact BEq.symm (Descriptor.beq_subst_left hsubst σ')

theorem Coherent.exists_view_of_bare (hs : s.Coherent) {c : ClassId} {view e : Descriptor}
    (h : s.Reaches (.bare c) view) (he : e.raw? = some c) (hwf : s.WellFormed e) :
    ∃ w, s.Reaches e w ∧ ((∃ b, view = .bare b ∧ w.raw? = some b) ∨ view == w) := by
  let R : Descriptor → Descriptor → Prop := fun x y =>
    s.WellFormed y ∧ ((∃ b, x = .bare b ∧ y.raw? = some b) ∨ x == y)
  have hstep : ∀ x y x', R x y → s.Step x x' → ∃ y', s.Step y y' ∧ R x' y' := by
    rintro x y x' ⟨hy, ⟨b, rfl, hraw⟩ | heq⟩ hx
    · cases hx with
      | @opened _ p _ _ hc hp hmem hsup =>
        obtain ⟨y', hy', hyraw⟩ := hy.exists_step hraw hc hmem hsup
        exact ⟨y', hy', hs.wellFormed_step hy hy', .inl ⟨p, rfl, hyraw⟩⟩
      | @bound _ b' decl supertype σ hd hc hopen hmem hσ =>
        cases hd
        -- a class without parameters is seen in one way, whatever its owner
        obtain ⟨τ, hτ, -⟩ := hy.bindingsOf
        have hclosed : supertype.vars = [] := by
          refine List.eq_nil_iff_forall_not_mem.2 fun v hv => ?_
          have hown := hs.own b decl hc supertype hmem v hv
          simp [ClassDecl.ownVars, hopen rfl] at hown
        have hself : ∀ ρ : Substitution, supertype.subst ρ = supertype := fun ρ =>
          Descriptor.subst_eq_self (by simp [hclosed])
        have hy' : s.Step y (supertype.subst τ) := .of_bindingsOf hraw hc (fun _ => hopen rfl) hmem hτ
        exact ⟨_, hy', hs.wellFormed_step hy hy', .inr (by rw [hself, hself]; exact BEq.rfl)⟩
    · obtain ⟨y', hy', heq'⟩ := Step.congr heq hx
      exact ⟨y', hy', hs.wellFormed_step hy hy', .inr heq'⟩
  obtain ⟨w, hw, _, hview⟩ := h.simulate (R := R) hstep ⟨hwf, .inl ⟨c, rfl, he⟩⟩
  exact ⟨w, hw, hview⟩

/-! ## Arguments that differ -/

/-- The parameter `v` at position `i` of the class `c`, for which one type has the argument `a` and the other, seen
through the class, has `a'`. -/
def Faces (s : Store) (wide narrow : Descriptor) (c : ClassId) (i : Nat) (v : TypeVar) (a a' : Descriptor) : Prop :=
  ∃ decl owner args owner' args', s.get? c = some decl ∧ (decl.ownVars c)[i]? = some v ∧
    wide = .applied owner c args ∧ args[i]? = some a ∧ s.Reaches narrow (.applied owner' c args') ∧
    args'[i]? = some a'

/-- The bounds of a parameter that mention no type variables. -/
def settledBounds (s : Store) (c : ClassId) (i : Nat) : List Descriptor :=
  ((((s.get? c).bind (·.params[i]?)).map (·.bounds)).getD []).filter (!·.hasVars)

/-- Both types have the same argument for a parameter. -/
def Same (s : Store) (wide narrow : Descriptor) (v : TypeVar) : Prop :=
  ∀ c i a a', s.Faces wide narrow c i v a a' → a == a'

/-- For a parameter with these bounds, the narrower type has a wildcard without upper bounds, and the wider one has
upper bounds that only those of the parameter can make up for. -/
def Leans (s : Store) (wide narrow : Descriptor) (v : TypeVar) (bounds : List Descriptor) : Prop :=
  ∃ c i lower upper lower', s.Faces wide narrow c i v (.wildcard lower upper) (.wildcard lower' []) ∧
    bounds = s.settledBounds c i ∧ ∃ u ∈ upper, ∀ r, s.root = some r → u ≠ .bare r

def Loose (s : Store) (wide narrow : Descriptor) (v : TypeVar) : Prop := ∀ bounds, ¬ s.Leans wide narrow v bounds

/-- At this position of the class the bounds are made up for as well. -/
def Suits (s : Store) (wide narrow : Descriptor) (v : TypeVar) (c : ClassId) (i : Nat) : Prop :=
  ∀ bounds, s.Leans wide narrow v bounds →
    ∀ b ∈ s.impliedUpper bounds, ∃ b' ∈ s.impliedUpper (s.settledBounds c i), b == b'

variable {wide narrow : Descriptor}

theorem Faces.declared {c : ClassId} {i : Nat} {v : TypeVar} {a a' : Descriptor}
    (h : s.Faces wide narrow c i v a a') : ∃ decl, s.get? c = some decl := by
  obtain ⟨decl, _, _, _, _, hc, _⟩ := h
  exact ⟨decl, hc⟩

theorem withDeclaredUpper_unbounded {c : ClassId} {i : Nat} {lower : List Descriptor} {decl : ClassDecl}
    (hc : s.get? c = some decl) :
    s.withDeclaredUpper c i (.wildcard lower []) = .ok (.wildcard lower (s.settledBounds c i)) := by
  rw [withDeclaredUpper, require_eq_ok_iff.2 hc, settledBounds, hc]
  rfl

theorem eq_unbounded_or_ne (a : Descriptor) :
    (∃ lower, a = .wildcard lower []) ∨ ∀ lower, a ≠ .wildcard lower [] := by
  by_cases h : ∃ lower, a = .wildcard lower []
  · exact .inl h
  · exact .inr fun lower heq => h ⟨lower, heq⟩

theorem withDeclaredUpper_of_ne {c : ClassId} {i : Nat} {a : Descriptor} (h : ∀ lower, a ≠ .wildcard lower []) :
    s.withDeclaredUpper c i a = .ok a := by
  unfold withDeclaredUpper
  split
  · rename_i lower
    exact (h lower rfl).elim
  · rfl

theorem vars_of_mem_settledBounds {c : ClassId} {i : Nat} {b : Descriptor} (h : b ∈ s.settledBounds c i) :
    b.vars = [] := by
  simpa [Descriptor.hasVars_eq] using (List.mem_filter.1 h).2

theorem FitsAt.cases_declared {R : Descriptor → Descriptor → Prop} {c : ClassId} {i : Nat} {a a' : Descriptor}
    {decl : ClassDecl} (hc : s.get? c = some decl) (h : s.FitsAt R c i a a') :
    a == a' ∨ ∃ lower upper, a = .wildcard lower upper ∧
      ((∀ lower', a' ≠ .wildcard lower' []) ∧ s.Within R lower upper a' ∨
        ∃ lower', a' = .wildcard lower' [] ∧ s.Within R lower upper (.wildcard lower' (s.settledBounds c i))) := by
  refine h.imp_right ?_
  rintro ⟨lower, upper, rfl, hw⟩
  refine ⟨lower, upper, rfl, ?_⟩
  rcases eq_unbounded_or_ne a' with ⟨lower', rfl⟩ | hne
  · exact .inr ⟨lower', rfl, hw _ (withDeclaredUpper_unbounded hc)⟩
  · exact .inl ⟨hne, hw _ (withDeclaredUpper_of_ne hne)⟩

theorem ne_unbounded_of_beq {a u : Descriptor} (h : a == u) (ha : ∀ lower, a ≠ .wildcard lower [])
    (lower : List Descriptor) : u ≠ .wildcard lower [] := by
  rintro rfl
  obtain ⟨lower', upper', rfl, _, hupper⟩ := Descriptor.wildcard_beq_iff.1 (BEq.symm h)
  rw [hupper.eq_nil_iff.1 rfl] at ha
  exact ha lower' rfl

theorem eq_root_of_not_leans {c : ClassId} {i : Nat} {v : TypeVar} {lower upper lower' : List Descriptor}
    (hfaces : s.Faces wide narrow c i v (.wildcard lower upper) (.wildcard lower' []))
    (h : ¬ s.Leans wide narrow v (s.settledBounds c i)) {u : Descriptor} (hu : u ∈ upper) :
    ∃ r, s.root = some r ∧ u = .bare r := by
  by_contra hno
  exact h ⟨c, i, lower, upper, lower', hfaces, rfl, u, hu, fun r hr heq => hno ⟨r, hr, heq⟩⟩

/-- The bounds that a wildcard is known by are all below the class above all others. -/
theorem Coherent.exists_allowed_by_root (hs : s.Coherent) {r : ClassId} (hr : s.root = some r)
    {bounds : List Descriptor} (hb : ∀ b ∈ bounds, b.vars = []) :
    ∃ b ∈ s.impliedUpper bounds, s.Allows (.bare r) b := by
  cases bounds with
  | nil => exact ⟨.bare r, by simp [impliedUpper, hr], allows_of_beq BEq.rfl⟩
  | cons b bounds =>
    exact ⟨b, mem_impliedUpper_of_mem List.mem_cons_self, hs.allows_root hr (hb b List.mem_cons_self)⟩

/-- What fits as an argument of the receiver fits in the places where the parameter may stand. -/
theorem Coherent.fits_elsewhere (hs : s.Coherent) {c : ClassId} {i : Nat} {v : TypeVar} {a a' : Descriptor}
    (hfaces : s.Faces wide narrow c i v a a') (hfits : s.FitsAt s.Grants c i a a') {u : Descriptor} (hu : a' == u) :
    (s.Loose wide narrow v → s.Allows a u) ∧
      ∀ b j, s.Suits wide narrow v b j → s.FitsAt s.Allows b j a u := by
  obtain ⟨decl, hc⟩ := hfaces.declared
  rcases hfits.cases_declared hc with heq | ⟨lower, upper, rfl, ⟨hne, hw⟩ | ⟨lower', rfl, hw⟩⟩
  · have hau := BEq.trans heq hu
    exact ⟨fun _ => allows_of_beq hau, fun _ _ _ => .inl hau⟩
  · have hwithin : s.Within s.Allows lower upper u :=
      (hw.congr respects_grants (.refl _) (.refl _) hu).mono fun _ _ => Grants.allows
    refine ⟨fun _ => allows_wildcard hwithin, fun b j _ => .inr ⟨lower, upper, rfl, fun bounded hbounded => ?_⟩⟩
    rw [withDeclaredUpper_of_ne (ne_unbounded_of_beq hu hne)] at hbounded
    cases hbounded
    exact hwithin
  · obtain ⟨lower'', upper'', rfl, hlower, hupper⟩ := Descriptor.wildcard_beq_iff.1 hu
    cases hupper.eq_nil_iff.1 rfl
    obtain ⟨hwu, hwl⟩ := hw.congr respects_grants (.refl _) (.refl _)
      (Descriptor.wildcard_beq_iff.2 ⟨lower'', _, rfl, hlower, .refl _⟩)
    have hlow : ∀ l ∈ lower, ∃ l' ∈ lower'', s.Allows l' l := fun l hl => by
      obtain ⟨l', hl', hgrants⟩ := hwl l hl
      exact ⟨l', hl', hgrants.allows⟩
    constructor
    · intro hloose
      refine allows_wildcard ⟨fun x hx => ?_, hlow⟩
      obtain ⟨r, hr, rfl⟩ := eq_root_of_not_leans hfaces (hloose _) hx
      exact hs.exists_allowed_by_root hr (by simp)
    · refine fun b j hsuits => .inr ⟨lower, upper, rfl, fun bounded hbounded => ?_⟩
      obtain ⟨declb, hb, _⟩ := bind_eq_ok_iff.1 hbounded
      rw [withDeclaredUpper_unbounded (require_eq_ok_iff.1 hb)] at hbounded
      cases hbounded
      refine ⟨fun x hx => ?_, hlow⟩
      by_cases hleans : s.Leans wide narrow v (s.settledBounds c i)
      · obtain ⟨y, hy, hgrants⟩ := hwu x hx
        obtain ⟨b', hb', heq⟩ := hsuits _ hleans y hy
        exact ⟨b', hb', (respects_grants BEq.rfl heq hgrants).allows⟩
      · obtain ⟨r, hr, rfl⟩ := eq_root_of_not_leans hfaces hleans hx
        exact hs.exists_allowed_by_root hr fun _ => vars_of_mem_settledBounds

/-- An application and a type that is seen through its class: what they have for a parameter. -/
theorem exists_faces {owner owner' : Option Descriptor} {c : ClassId} {args args' : List Descriptor}
    {decl : ClassDecl} {σ σ' : Substitution} {v : TypeVar} (hc : s.get? c = some decl) (hv : v ∈ decl.ownVars c)
    (hwf : s.WellFormed (.applied owner c args)) (hwf' : s.WellFormed (.applied owner' c args'))
    (hk : (Descriptor.applied owner c args).KeepsOwn) (hk' : (Descriptor.applied owner' c args').KeepsOwn)
    (hseen : s.Reaches narrow (.applied owner' c args')) (hσ : s.bindingsOf (.applied owner c args) = .ok σ)
    (hσ' : s.bindingsOf (.applied owner' c args') = .ok σ')
    (hfits : ∀ (i : Nat) r a, args[i]? = some r → args'[i]? = some a → s.FitsAt s.Grants c i r a) :
    ∃ i a a', σ.get? v = some a ∧ σ'.get? v = some a' ∧ s.Faces (.applied owner c args) narrow c i v a a' ∧
      s.FitsAt s.Grants c i a a' := by
  obtain ⟨i, hi, hget⟩ := exists_argument hc hv
  obtain ⟨a, ha, hσv⟩ := hget owner args σ hk hσ (hwf.arity_eq hc)
  obtain ⟨a', ha', hσv'⟩ := hget owner' args' σ' hk' hσ' (hwf'.arity_eq hc)
  exact ⟨i, a, a', hσv, hσv', ⟨decl, owner, args, owner', args', hc, hi, rfl, ha, hseen, ha'⟩, hfits i a a' ha ha'⟩

end Generics.Store
