import Generics.Proofs.Sameness
import Generics.Proofs.WellFormed

/-! # The views of a type through the classes above it

A type is seen through each class above its own as the types of that class that it reaches. Three things are
proved of these views.

* Types that are the same have the same views (`Reaches.congr`).
* A well-formed type has a view through every class above its own, and all its views are well-formed.
* If no class reaches an ancestor in two shapes, every type has at most one view through a class
  (`reaches_unique`). What a type reaches is what its class reaches with the arguments put in, unless an owner
  on the way binds the variables of the class that it owns. -/

namespace Generics.Store
set_option autoImplicit false

open Result

variable {s : Store}

/-- What holds between two types and is kept by a step holds between what they reach. -/
theorem Reaches.simulate {R : Descriptor → Descriptor → Prop} {d d' e : Descriptor}
    (hstep : ∀ d e d', R d e → s.Step d d' → ∃ e', s.Step e e' ∧ R d' e') (h : s.Reaches d d') (hR : R d e) :
    ∃ e', s.Reaches e e' ∧ R d' e' := by
  induction h with
  | refl => exact ⟨e, .refl, hR⟩
  | tail _ hlast ih =>
    obtain ⟨e₁, hreach, hR₁⟩ := ih
    obtain ⟨e₂, hnext, hR₂⟩ := hstep _ _ _ hR₁ hlast
    exact ⟨e₂, hreach.tail hnext, hR₂⟩

/-! ## Types that are the same -/

theorem bindingsFrom_congr {d e : Descriptor} {σ τ σ' : Substitution} (h : d == e) (hrel : σ.Rel (· == ·) τ)
    (hσ : s.bindingsFrom σ d = .ok σ') : ∃ τ', s.bindingsFrom τ e = .ok τ' ∧ σ'.Rel (· == ·) τ' := by
  induction d using Descriptor.induct generalizing e σ τ with
  | bare c =>
    rw [Descriptor.bare_beq_iff.1 h]
    cases hσ
    exact ⟨τ, rfl, hrel⟩
  | applied owner c args ho ha =>
    obtain ⟨owner', args', rfl, howner, hargs⟩ := Descriptor.applied_beq_iff.1 h
    rw [bindingsFrom, bind_eq_ok_iff] at hσ
    obtain ⟨decl, hdecl, hσ⟩ := hσ
    rw [bindingsFrom, hdecl, ok_bind, ← hargs.length_eq]
    split at hσ
    · cases hσ
    · rename_i harity
      rw [if_neg harity]
      cases howner with
      | none =>
        cases hσ
        exact ⟨_, rfl, hrel.insertAll hargs⟩
      | some heq => exact ho _ rfl heq (hrel.insertAll hargs) hσ
  | var v =>
    rw [Descriptor.var_beq_iff.1 h]
    cases hσ
    exact ⟨τ, rfl, hrel⟩
  | wildcard lower upper =>
    obtain ⟨lower', upper', rfl, _⟩ := Descriptor.wildcard_beq_iff.1 h
    cases hσ
    exact ⟨τ, rfl, hrel⟩

theorem Step.congr {d e d' : Descriptor} (h : d == e) (hstep : s.Step d d') :
    ∃ e', s.Step e e' ∧ d' == e' := by
  cases hstep with
  | opened hc hp hs hraw =>
    rw [Descriptor.bare_beq_iff.1 h]
    exact ⟨_, .opened hc hp hs hraw, BEq.rfl⟩
  | @bound _ c decl supertype ρ hd hc ho hs hρ =>
    obtain ⟨σ, hσ, hsame⟩ := hρ.exists_bindingsOf
    rw [hsame]
    obtain ⟨τ, hτ, hrel⟩ := bindingsFrom_congr h (Substitution.rel_empty _) hσ
    refine ⟨supertype.subst τ, .of_bindingsOf ?_ hc ?_ hs hτ, Descriptor.beq_subst BEq.rfl fun v _ => hrel v⟩
    · rw [← Descriptor.raw?_eq_of_beq h]
      exact hd
    · rintro rfl
      exact ho (Descriptor.bare_beq_iff.1 (BEq.symm h))

theorem Reaches.congr {d e d' : Descriptor} (h : d == e) (hreach : s.Reaches d d') :
    ∃ e', s.Reaches e e' ∧ d' == e' :=
  hreach.simulate (R := fun d e => d == e) (fun _ _ _ => Step.congr) h

/-! ## Well-formed types -/

theorem WellFormed.bindingsOf {d : Descriptor} (hd : s.WellFormed d) :
    ∃ σ, s.bindingsOf d = .ok σ ∧ σ.All s.WellFormed :=
  hd.bindingsFrom (Substitution.all_empty _)

theorem ProperSupertypes.wellFormed_step (hs : s.ProperSupertypes) {d e : Descriptor} (hd : s.WellFormed d)
    (h : s.Step d e) : s.WellFormed e := by
  cases h with
  | @opened c p _ _ hc hp hmem hraw =>
    exact (checkArity_eq_ok_iff.1 (hs.arity _ _ hc _ hmem)).erase? (erase?_eq_some_iff.2 ⟨p, hraw, rfl⟩)
  | bound hraw hc ho hmem hρ =>
    obtain ⟨σ, hσ, hsame⟩ := hρ.exists_bindingsOf
    obtain ⟨τ, hτ, hall⟩ := hd.bindingsOf
    rw [hσ] at hτ
    cases hτ
    rw [hsame]
    exact (checkArity_eq_ok_iff.1 (hs.arity _ _ hc _ hmem)).subst hall

theorem ProperSupertypes.wellFormed_reaches (hs : s.ProperSupertypes) {d e : Descriptor} (hd : s.WellFormed d)
    (h : s.Reaches d e) : s.WellFormed e := by
  induction h with
  | refl => exact hd
  | tail _ hlast ih => exact hs.wellFormed_step ih hlast

theorem WellFormed.exists_step {d supertype : Descriptor} {c p : ClassId} {decl : ClassDecl}
    (hd : s.WellFormed d) (hraw : d.raw? = some c) (hc : s.get? c = some decl)
    (hmem : supertype ∈ decl.supertypes) (hp : supertype.raw? = some p) :
    ∃ e, s.Step d e ∧ e.raw? = some p := by
  obtain ⟨σ, hσ, -⟩ := hd.bindingsOf
  by_cases hopen : d = .bare c ∧ decl.params ≠ []
  · obtain ⟨rfl, hparams⟩ := hopen
    exact ⟨.bare p, .opened hc hparams hmem hp, rfl⟩
  · refine ⟨supertype.subst σ, .of_bindingsOf hraw hc (fun h => ?_) hmem hσ, raw?_subst σ hp⟩
    exact Decidable.not_not.1 fun hparams => hopen ⟨h, hparams⟩

theorem ProperSupertypes.exists_reaches (hs : s.ProperSupertypes) {d : Descriptor} {c p : ClassId}
    (hd : s.WellFormed d) (hraw : d.raw? = some c) (h : s.Below c p) : ∃ e, s.Reaches d e ∧ e.raw? = some p := by
  induction h with
  | refl => exact ⟨d, .refl, hraw⟩
  | tail _ hparent ih =>
    obtain ⟨e, hreach, he⟩ := ih
    obtain ⟨decl, hdecl, hp⟩ := hparent
    obtain ⟨supertype, hmem, hsup⟩ := mem_parents.1 hp
    obtain ⟨e', hstep, he'⟩ := (hs.wellFormed_reaches hd hreach).exists_step he hdecl hmem hsup
    exact ⟨e', hreach.tail hstep, he'⟩

end Generics.Store

namespace Generics

/-! ## Own arguments -/

/-- A descriptor is an application of `c`, or one of its owners is. -/
inductive Descriptor.Binds (c : ClassId) : Descriptor → Prop
  | here (owner : Option Descriptor) (args : List Descriptor) : Binds c (.applied owner c args)
  | owner {o : Descriptor} (h : Binds c o) (c' : ClassId) (args : List Descriptor) :
      Binds c (.applied (some o) c' args)

/-- No owner binds the variables of the class that it owns. -/
def Descriptor.KeepsOwn (d : Descriptor) : Prop := ∀ o c args, d = .applied (some o) c args → ¬ o.Binds c

theorem Descriptor.Binds.subst {c : ClassId} {d : Descriptor} (h : d.Binds c) (σ : Substitution) :
    (d.subst σ).Binds c := by
  induction h with
  | here owner args => exact .here _ _
  | owner _ c' args ih => exact .owner ih c' _

namespace Substitution

theorem get?_insertAll_of_not_mem {σ : Substitution} {vs : List TypeVar} {ds : List Descriptor} {v : TypeVar}
    (h : v ∉ vs) : (σ.insertAll (vs.zip ds)).get? v = σ.get? v := by
  induction vs generalizing σ ds with
  | nil => rfl
  | cons w vs ih =>
    obtain ⟨hw, hvs⟩ := List.ne_and_not_mem_of_not_mem_cons h
    cases ds with
    | nil => rfl
    | cons d ds => exact (ih (σ := σ.insert w d) hvs).trans (by rw [get?_insert, if_neg hw])

/-- Each of the variables is bound to what stands at one position, which depends only on the variables. -/
theorem exists_position {vs : List TypeVar} {v : TypeVar} (h : v ∈ vs) :
    ∃ i : Nat, vs[i]? = some v ∧ ∀ (σ : Substitution) (ds : List Descriptor), vs.length = ds.length →
      ∃ d, ds[i]? = some d ∧ (σ.insertAll (vs.zip ds)).get? v = some d := by
  induction vs with
  | nil => simp at h
  | cons w vs ih =>
    by_cases hvs : v ∈ vs
    · obtain ⟨i, hi, hget⟩ := ih hvs
      refine ⟨i + 1, hi, fun σ ds hl => ?_⟩
      cases ds with
      | nil => simp at hl
      | cons d ds => exact hget (σ.insert w d) ds (Nat.succ.inj hl)
    · have hvw : v = w := (List.mem_cons.1 h).resolve_right hvs
      refine ⟨0, by rw [hvw]; rfl, fun σ ds hl => ?_⟩
      cases ds with
      | nil => simp at hl
      | cons d ds =>
        exact ⟨d, rfl, (get?_insertAll_of_not_mem (σ := σ.insert w d) hvs).trans (by rw [get?_insert, if_pos hvw])⟩

theorem get?_insertAll_of_mem {σ : Substitution} {vs : List TypeVar} {ds : List Descriptor} {v : TypeVar}
    (h : v ∈ vs) (hl : vs.length = ds.length) : ∃ d ∈ ds, (σ.insertAll (vs.zip ds)).get? v = some d := by
  obtain ⟨i, _, hget⟩ := exists_position h
  obtain ⟨d, hd, hσ⟩ := hget σ ds hl
  exact ⟨d, List.mem_of_getElem? hd, hσ⟩

theorem get?_insertAll_map {σ : Substitution} {vs : List TypeVar} {v : TypeVar} (h : v ∈ vs) :
    (σ.insertAll (vs.zip (vs.map .var))).get? v = some (.var v) := by
  induction vs generalizing σ with
  | nil => simp at h
  | cons w vs ih =>
    by_cases hvs : v ∈ vs
    · exact ih (σ := σ.insert w (.var w)) hvs
    · have hvw : v = w := (List.mem_cons.1 h).resolve_right hvs
      refine (get?_insertAll_of_not_mem (σ := σ.insert w (.var w)) hvs).trans ?_
      rw [get?_insert, if_pos hvw, hvw]

end Substitution

def ClassDecl.ownBindings (decl : ClassDecl) (c : ClassId) (args : List Descriptor) : Substitution :=
  Substitution.empty.insertAll ((decl.ownVars c).zip args)

namespace Store

open Result

variable {s : Store}

theorem get?_bindingsFrom {c : ClassId} {d : Descriptor} {σ σ' : Substitution} (h : ¬ d.Binds c)
    (hσ : s.bindingsFrom σ d = .ok σ') (name : String) :
    σ'.get? ⟨.ofClass c, name⟩ = σ.get? ⟨.ofClass c, name⟩ := by
  induction d using Descriptor.induct generalizing σ with
  | bare c' =>
    cases hσ
    rfl
  | applied owner c' args ho ha =>
    have hne : c ≠ c' := fun heq => h (heq ▸ .here owner args)
    rw [bindingsFrom, bind_eq_ok_iff] at hσ
    obtain ⟨decl, hdecl, hσ⟩ := hσ
    have hown : ∀ ds, (σ.insertAll ((decl.ownVars c').zip ds)).get? ⟨.ofClass c, name⟩ =
        σ.get? ⟨.ofClass c, name⟩ := by
      intro ds
      refine Substitution.get?_insertAll_of_not_mem fun hmem => ?_
      obtain ⟨p, _, heq⟩ := List.mem_map.1 hmem
      cases heq
      exact hne rfl
    split at hσ
    · cases hσ
    · cases owner with
      | none =>
        cases hσ
        exact hown args
      | some o => exact (ho o rfl (fun hb => h (.owner hb c' args)) hσ).trans (hown args)
  | var v =>
    cases hσ
    rfl
  | wildcard lower upper =>
    cases hσ
    rfl

/-- An application binds the variables of its class to its own arguments. -/
theorem get?_bindingsOf {owner : Option Descriptor} {c : ClassId} {args : List Descriptor} {decl : ClassDecl}
    {σ : Substitution} (hk : (Descriptor.applied owner c args).KeepsOwn) (hc : s.get? c = some decl)
    (hσ : s.bindingsOf (.applied owner c args) = .ok σ) (name : String) :
    σ.get? ⟨.ofClass c, name⟩ = (decl.ownBindings c args).get? ⟨.ofClass c, name⟩ := by
  rw [bindingsOf, bindingsFrom, require_eq_ok_iff.2 hc, ok_bind] at hσ
  split at hσ
  · cases hσ
  · cases owner with
    | none =>
      cases hσ
      rfl
    | some o => exact get?_bindingsFrom (hk o c args rfl) hσ name

theorem exists_getElem?_of_length_eq {α β : Type} {xs : List α} {ys : List β} (h : xs.length = ys.length) {i : Nat}
    {x : α} (hx : xs[i]? = some x) : ∃ y, ys[i]? = some y := by
  obtain ⟨hi, _⟩ := List.getElem?_eq_some_iff.1 hx
  exact ⟨_, List.getElem?_eq_getElem (h ▸ hi)⟩

theorem exists_getElem?_of_forall₂ {ds es : List Descriptor} {R : Descriptor → Descriptor → Prop}
    (h : List.Forall₂ R ds es) {i : Nat} {d : Descriptor} (hd : ds[i]? = some d) : ∃ e, es[i]? = some e ∧ R d e := by
  induction h generalizing i with
  | nil => simp at hd
  | @cons x y _ _ hxy _ ih =>
    cases i with
    | zero =>
      cases hd
      exact ⟨y, rfl, hxy⟩
    | succ i => exact ih hd

theorem exists_argument {c : ClassId} {decl : ClassDecl} {v : TypeVar} (hc : s.get? c = some decl)
    (hv : v ∈ decl.ownVars c) :
    ∃ i : Nat, (decl.ownVars c)[i]? = some v ∧ ∀ owner args σ, (Descriptor.applied owner c args).KeepsOwn →
      s.bindingsOf (.applied owner c args) = .ok σ → decl.arity = args.length →
      ∃ a, args[i]? = some a ∧ σ.get? v = some a := by
  obtain ⟨i, hi, hget⟩ := Substitution.exists_position hv
  refine ⟨i, hi, fun owner args σ hk hσ hl => ?_⟩
  obtain ⟨a, ha, hown⟩ := hget .empty args (by rw [ClassDecl.ownVars, List.length_map]; exact hl)
  obtain ⟨p, _, rfl⟩ := List.mem_map.1 hv
  exact ⟨a, ha, (get?_bindingsOf hk hc hσ p.name).trans hown⟩

/-- Declared supertypes mention no type variables but those of the class. -/
def OwnSupertypes (s : Store) : Prop :=
  ∀ c decl, s.get? c = some decl → ∀ supertype ∈ decl.supertypes, ∀ v ∈ supertype.vars, v ∈ decl.ownVars c

theorem ownSupertypes_of_all (h : ∀ x ∈ s.classes.toList, ∀ supertype ∈ x.2.supertypes,
    ∀ v ∈ supertype.vars, v ∈ x.2.ownVars ⟨x.1⟩) : s.OwnSupertypes := by
  intro c decl hc
  exact forall_get? (P := fun c decl => ∀ supertype ∈ decl.supertypes, ∀ v ∈ supertype.vars, v ∈ decl.ownVars c) h hc

/-- What a supertype is seen as from two applications whose arguments are related. -/
theorem OwnSupertypes.rel (ho : s.OwnSupertypes) {P : Descriptor → Descriptor → Prop}
    {owner owner' : Option Descriptor} {c : ClassId} {args args' : List Descriptor} {decl : ClassDecl}
    {supertype : Descriptor} {σ τ : Substitution} (hc : s.get? c = some decl)
    (hmem : supertype ∈ decl.supertypes) (hk : (Descriptor.applied owner c args).KeepsOwn)
    (hk' : (Descriptor.applied owner' c args').KeepsOwn) (hσ : s.bindingsOf (.applied owner c args) = .ok σ)
    (hτ : s.bindingsOf (.applied owner' c args') = .ok τ) (hargs : List.Forall₂ P args args')
    (hl : decl.arity = args.length) :
    ∀ v ∈ supertype.vars, ∃ a a', a ∈ args ∧ a' ∈ args' ∧ σ.get? v = some a ∧ τ.get? v = some a' ∧ P a a' := by
  intro v hv
  obtain ⟨i, _, hget⟩ := exists_argument hc (ho c decl hc supertype hmem v hv)
  obtain ⟨a, ha, hσv⟩ := hget owner args σ hk hσ hl
  obtain ⟨a', ha', hτv⟩ := hget owner' args' τ hk' hτ (hl.trans hargs.length_eq)
  obtain ⟨_, ha'', hP⟩ := exists_getElem?_of_forall₂ hargs ha
  rw [ha'] at ha''
  cases ha''
  exact ⟨a, a', List.mem_of_getElem? ha, List.mem_of_getElem? ha', hσv, hτv, hP⟩

/-! ## One view through each class -/

/-- Neither a class on its own nor one applied to its own parameters reaches any class in two shapes. -/
def OneShape (s : Store) : Prop :=
  ∀ c d, d = .bare c ∨ s.template c = .ok d →
    ∀ e e', s.Reaches d e → s.Reaches d e' → e.raw? = e'.raw? → e == e'

/-- Declared supertypes are nominal, well-formed and mention only the parameters of their class, there are no cycles,
one class is above all others, and no class reaches another in two shapes. -/
structure Coherent (s : Store) : Prop extends ProperSupertypes s where
  own : s.OwnSupertypes
  acyclic : ∀ c, ¬ Relation.TransGen s.Parent c c
  rooted : ∃ r, s.root = some r ∧ ∀ c, s.contains c → s.Below c r
  oneShape : s.OneShape

theorem raw?_of_subst {d : Descriptor} {σ : Substitution} (h : d.raw?.isSome) : (d.subst σ).raw? = d.raw? := by
  obtain ⟨c, hc⟩ := Option.isSome_iff_exists.1 h
  rw [raw?_subst σ hc, hc]

theorem raw?_isSome_subst {d : Descriptor} (σ : Substitution) (h : d.raw?.isSome) : (d.subst σ).raw?.isSome := by
  rw [raw?_of_subst h]
  exact h

/-- A step from a type with something put in is a step from the type, with the same put in. -/
theorem Step.lift (hn : s.NominalSupertypes) (ho : s.OwnSupertypes) {f e : Descriptor} {σ : Substitution}
    (hf : s.WellFormed f) (hraw : f.raw?.isSome) (hk : (f.subst σ).KeepsOwn) (h : s.Step (f.subst σ) e) :
    ∃ g, s.Step f g ∧ g.raw?.isSome ∧ e = g.subst σ := by
  cases f with
  | bare c =>
    rw [Descriptor.subst] at h
    refine ⟨e, h, ?_⟩
    cases h with
    | opened hc hp hmem hsup => exact ⟨rfl, rfl⟩
    | @bound _ c' decl supertype τ hd hc hparams hmem hτ =>
      cases hd
      have hclosed : supertype.vars = [] := by
        refine List.eq_nil_iff_forall_not_mem.2 fun v hv => ?_
        have hown := ho c decl hc supertype hmem v hv
        simp [ClassDecl.ownVars, hparams rfl] at hown
      have hself : ∀ ρ : Substitution, supertype.subst ρ = supertype := fun ρ =>
        Descriptor.subst_eq_self (by simp [hclosed])
      rw [hself, hself]
      exact ⟨hn c decl hc supertype hmem, rfl⟩
  | applied owner c args =>
    obtain ⟨τ, hτ, -⟩ := hf.bindingsOf
    have hkf : (Descriptor.applied owner c args).KeepsOwn := by
      rintro o c' args' heq hb
      cases heq
      exact hk (o.subst σ) c _ rfl (hb.subst σ)
    rw [Descriptor.subst, Descriptor.substOwner_eq, Descriptor.substList_eq] at h hk
    cases h with
    | @bound _ c' decl supertype ρ hd hc hparams hmem hρ =>
      obtain ⟨τ', hτ', hsame⟩ := hρ.exists_bindingsOf
      rw [hsame]
      cases hd
      refine ⟨supertype.subst τ, .of_bindingsOf rfl hc (fun heq => by cases heq) hmem hτ,
        raw?_isSome_subst τ (hn c decl hc supertype hmem), ?_⟩
      have hargs : List.Forall₂ (fun a a' => a' = a.subst σ) args (args.map (Descriptor.subst σ)) := by
        rw [List.forall₂_map_right_iff]
        exact List.forall₂_same.2 fun _ _ => rfl
      refine (Descriptor.subst_subst fun v hv => ?_).symm
      obtain ⟨a, a', _, _, hget, hget', rfl⟩ := ho.rel hc hmem hkf hk hτ hτ' hargs (hf.arity_eq hc) v hv
      exact ⟨a, hget, hget'⟩
  | var v => simp [Descriptor.raw?] at hraw
  | wildcard lower upper => simp [Descriptor.raw?] at hraw

theorem ProperSupertypes.lift (hs : s.ProperSupertypes) (ho : s.OwnSupertypes) {f e : Descriptor}
    {σ : Substitution} (hf : s.WellFormed f) (hraw : f.raw?.isSome)
    (hk : ∀ x, s.Reaches (f.subst σ) x → x.KeepsOwn) (h : s.Reaches (f.subst σ) e) :
    ∃ g, s.Reaches f g ∧ g.raw?.isSome ∧ e = g.subst σ := by
  let R : Descriptor → Descriptor → Prop := fun x f =>
    s.WellFormed f ∧ f.raw?.isSome ∧ x = f.subst σ ∧ ∀ y, s.Reaches x y → y.KeepsOwn
  have hstep : ∀ x f x', R x f → s.Step x x' → ∃ f', s.Step f f' ∧ R x' f' := by
    rintro x f x' ⟨hf, hraw, rfl, hk⟩ hx
    obtain ⟨g, hg, hgraw, rfl⟩ := Step.lift hs.nominal ho hf hraw (hk _ .refl) hx
    exact ⟨g, hg, hs.wellFormed_step hf hg, hgraw, rfl, fun y hy => hk y (.head hx hy)⟩
  obtain ⟨g, hg, _, hgraw, heq, _⟩ := h.simulate (R := R) hstep ⟨hf, hraw, rfl, hk⟩
  exact ⟨g, hg, hgraw, heq⟩

theorem template_eq {c : ClassId} {decl : ClassDecl} (hc : s.get? c = some decl) (hp : decl.params ≠ []) :
    s.template c = .ok (.generic c ((decl.ownVars c).map .var)) := by
  rw [template, require_eq_ok_iff.2 hc, ok_bind, if_neg (fun h => hp (List.isEmpty_iff.1 h)), ClassDecl.ownVars,
    List.map_map]
  rfl

theorem exists_template {c : ClassId} {decl : ClassDecl} (hc : s.get? c = some decl) :
    ∃ t τ, s.template c = .ok t ∧ s.WellFormed t ∧ t.raw? = some c ∧ (t = .bare c → decl.params = []) ∧
      s.bindingsOf t = .ok τ ∧ ∀ v ∈ decl.ownVars c, τ.get? v = some (.var v) := by
  by_cases hp : decl.params = []
  · refine ⟨.bare c, .empty, ?_, .bare hc, rfl, fun _ => hp, rfl, ?_⟩
    · rw [template, require_eq_ok_iff.2 hc, ok_bind, if_pos (List.isEmpty_iff.2 hp)]
      rfl
    · simp [ClassDecl.ownVars, hp]
  · have hl : decl.arity = ((decl.ownVars c).map Descriptor.var).length := by
      simp [ClassDecl.ownVars, ClassDecl.arity]
    refine ⟨.generic c ((decl.ownVars c).map .var), decl.ownBindings c ((decl.ownVars c).map .var),
      template_eq hc hp, .applied hc hl (fun o ho => by cases ho) ?_, rfl, (fun h => by cases h), ?_, ?_⟩
    · intro a ha
      obtain ⟨v, _, rfl⟩ := List.mem_map.1 ha
      exact .var v
    · rw [bindingsOf, Descriptor.generic, bindingsFrom, require_eq_ok_iff.2 hc, ok_bind,
        if_neg (Decidable.not_not.2 hl)]
      rfl
    · exact fun v hv => Substitution.get?_insertAll_map hv

/-- What an application reaches by one step or more is what its class reaches, with the arguments put in. -/
theorem Coherent.reaches_template (hs : s.Coherent) {owner : Option Descriptor} {c : ClassId}
    {args : List Descriptor} {t x e : Descriptor} {σ : Substitution} (ht : s.template c = .ok t)
    (hd : s.WellFormed (.applied owner c args)) (hk : ∀ y, s.Reaches (.applied owner c args) y → y.KeepsOwn)
    (hσ : s.bindingsOf (.applied owner c args) = .ok σ) (hx : s.Step (.applied owner c args) x)
    (h : s.Reaches x e) : ∃ g, s.Reaches t g ∧ g.raw?.isSome ∧ e = g.subst σ := by
  cases hd with
  | @applied _ _ _ decl hc hl howner hargs =>
    cases hx with
    | @bound _ c' decl' supertype ρ hraw hc' hopen hmem hρ =>
      obtain ⟨σ', hσ', hsame⟩ := hρ.exists_bindingsOf
      rw [hsame] at h
      cases hraw
      rw [hc] at hc'
      cases hc'
      rw [hσ] at hσ'
      cases hσ'
      obtain ⟨t', τ, ht', htwf, htraw, htopen, hτ, hvar⟩ := exists_template hc
      rw [ht] at ht'
      cases ht'
      have hfirst : s.Step t (supertype.subst τ) := .of_bindingsOf htraw hc htopen hmem hτ
      have heq : (supertype.subst τ).subst σ = supertype.subst σ := by
        refine Descriptor.subst_subst fun v hv => ?_
        obtain ⟨a, _, _, _, hget, _⟩ := hs.own.rel (P := (· = ·)) hc hmem (hk _ .refl) (hk _ .refl) hσ hσ
          (List.forall₂_same.2 fun _ _ => rfl) hl v hv
        refine ⟨.var v, hvar v (hs.own c decl hc supertype hmem v hv), ?_⟩
        rw [hget, Descriptor.subst, hget]
        rfl
      rw [← heq] at h
      have hkeeps : ∀ y, s.Reaches ((supertype.subst τ).subst σ) y → y.KeepsOwn := by
        intro y hy
        rw [heq] at hy
        exact hk y (.head (.of_bindingsOf rfl hc hopen hmem hσ) hy)
      obtain ⟨g, hg, hgraw, rfl⟩ := hs.lift hs.own (hs.wellFormed_step htwf hfirst)
        (raw?_isSome_subst τ (hs.nominal c decl hc supertype hmem)) hkeeps h
      exact ⟨g, .head hfirst hg, hgraw, rfl⟩

theorem raw?_ne_of_step (hn : s.NominalSupertypes) (ha : ∀ c, ¬ Relation.TransGen s.Parent c c)
    {d x e : Descriptor} (hx : s.Step d x) (h : s.Reaches x e) : e.raw? ≠ d.raw? := by
  obtain ⟨c, p, hd, hp, hparent⟩ := hx.parent hn
  obtain ⟨q, hq, hup⟩ := h.above hn hp
  rw [hd, hq]
  intro heq
  cases heq
  exact ha c (Relation.TransGen.head' hparent hup)

theorem eq_of_reaches (hn : s.NominalSupertypes) (ha : ∀ c, ¬ Relation.TransGen s.Parent c c) {d e : Descriptor}
    (h : s.Reaches d e) (hraw : e.raw? = d.raw?) : e = d := by
  rcases Relation.ReflTransGen.cases_head h with rfl | ⟨x, hx, hxe⟩
  · rfl
  · exact absurd hraw (raw?_ne_of_step hn ha hx hxe)

theorem Coherent.reaches_unique (hs : s.Coherent) {d e e' : Descriptor} (hd : s.WellFormed d)
    (hk : ∀ y, s.Reaches d y → y.KeepsOwn) (h : s.Reaches d e) (h' : s.Reaches d e')
    (hraw : e.raw? = e'.raw?) : e == e' := by
  by_cases hbare : ∃ c, d = .bare c
  · obtain ⟨c, rfl⟩ := hbare
    exact hs.oneShape c _ (.inl rfl) e e' h h' hraw
  rcases Relation.ReflTransGen.cases_head h with rfl | ⟨x, hx, hxe⟩
  · rw [eq_of_reaches hs.nominal hs.acyclic h' hraw.symm]
    exact BEq.rfl
  · rcases Relation.ReflTransGen.cases_head h' with rfl | ⟨x', hx', hxe'⟩
    · exact absurd hraw (raw?_ne_of_step hs.nominal hs.acyclic hx hxe)
    · cases d with
      | bare c => exact absurd ⟨c, rfl⟩ hbare
      | applied owner c args =>
        obtain ⟨σ, hσ, -⟩ := hd.bindingsOf
        obtain ⟨decl, hc⟩ := hd.declared rfl
        -- both are views of the class applied to its own parameters, with the arguments put in
        obtain ⟨t, _, ht, _⟩ := exists_template hc
        obtain ⟨g, hg, hgraw, rfl⟩ := hs.reaches_template ht hd hk hσ hx hxe
        obtain ⟨g', hg', hgraw', rfl⟩ := hs.reaches_template ht hd hk hσ hx' hxe'
        rw [raw?_of_subst hgraw, raw?_of_subst hgraw'] at hraw
        have hsame := hs.oneShape c t (.inr ht) g g' hg hg' hraw
        exact Descriptor.beq_subst_left hsame σ
      | var v =>
        obtain ⟨c, _, hc, _⟩ := hx.parent hs.nominal
        cases hc
      | wildcard lower upper =>
        obtain ⟨c, _, hc, _⟩ := hx.parent hs.nominal
        cases hc

end Store

end Generics
