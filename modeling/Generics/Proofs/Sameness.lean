import Mathlib.Data.List.Forall2
import Generics.Descriptor.Comparison
import Generics.Descriptor.Substitution

/-! # Descriptors that are the same

`==` is an equivalence, and what is put into descriptors that are the same may be exchanged for what is the
same (`beq_subst`). The lemmas on one shape each say what makes a descriptor the same as one of that shape:
arguments in order (`List.Forall₂`), bounds as sets (`SameSets`). -/

namespace Generics.Descriptor
set_option autoImplicit false

/-! ## Shape by shape -/

/-- Each of either list is the same as one of the other. -/
def SameSets (ds es : List Descriptor) : Prop :=
  (∀ d ∈ ds, ∃ e ∈ es, d == e) ∧ ∀ e ∈ es, ∃ d ∈ ds, d == e

theorem sameList_iff {ds es : List Descriptor} : sameList ds es = true ↔ List.Forall₂ (· == ·) ds es := by
  induction ds generalizing es with
  | nil => cases es <;> simp [sameList]
  | cons d ds ih => cases es <;> simp [sameList, ih, beq_eq_same]

theorem sameOwner_iff {owner owner' : Option Descriptor} :
    sameOwner owner owner' = true ↔ Option.Rel (· == ·) owner owner' := by
  cases owner <;> cases owner' <;> simp [sameOwner, beq_eq_same]

theorem sameSets_iff {ds es : List Descriptor} :
    (ds.all (fun d => es.any d.same) && es.all fun e => ds.any (·.same e)) = true ↔ SameSets ds es := by
  simp [SameSets, beq_eq_same]

theorem bare_beq_iff {c : ClassId} {e : Descriptor} : (bare c == e) = true ↔ e = .bare c := by
  rw [beq_eq_same]
  cases e with
  | bare c' =>
    simp only [same, beq_iff_eq, bare.injEq]
    exact eq_comm
  | applied owner c' args => simp [same]
  | var v => simp [same]
  | wildcard lower upper => simp [same]

theorem applied_beq_iff {owner : Option Descriptor} {c : ClassId} {args : List Descriptor} {e : Descriptor} :
    (applied owner c args == e) = true ↔
      ∃ owner' args', e = .applied owner' c args' ∧ Option.Rel (· == ·) owner owner' ∧
        List.Forall₂ (· == ·) args args' := by
  rw [beq_eq_same]
  cases e with
  | applied owner' c' args' =>
    simp only [same, Bool.and_eq_true, beq_iff_eq, sameOwner_iff, sameList_iff]
    constructor
    · rintro ⟨⟨rfl, ho⟩, ha⟩
      exact ⟨owner', args', rfl, ho, ha⟩
    · rintro ⟨_, _, h, ho, ha⟩
      cases h
      exact ⟨⟨rfl, ho⟩, ha⟩
  | bare c' => simp [same]
  | var v => simp [same]
  | wildcard lower upper => simp [same]

theorem var_beq_iff {v : TypeVar} {e : Descriptor} : (var v == e) = true ↔ e = .var v := by
  rw [beq_eq_same]
  cases e with
  | bare c => simp [same]
  | applied owner c args => simp [same]
  | var v' =>
    simp only [same, beq_iff_eq, var.injEq]
    exact eq_comm
  | wildcard lower upper => simp [same]

theorem wildcard_beq_iff {lower upper : List Descriptor} {e : Descriptor} :
    (wildcard lower upper == e) = true ↔
      ∃ lower' upper', e = .wildcard lower' upper' ∧ SameSets lower lower' ∧ SameSets upper upper' := by
  rw [beq_eq_same]
  cases e with
  | wildcard lower' upper' =>
    rw [same_wildcard, Bool.and_eq_true, sameSets_iff, sameSets_iff]
    constructor
    · rintro ⟨hl, hu⟩
      exact ⟨lower', upper', rfl, hl, hu⟩
    · rintro ⟨_, _, h, hl, hu⟩
      cases h
      exact ⟨hl, hu⟩
  | bare c => simp [same]
  | applied owner c args => simp [same]
  | var v => simp [same]

theorem raw?_eq_of_beq {d e : Descriptor} (h : d == e) : d.raw? = e.raw? := by
  cases d with
  | bare c => rw [bare_beq_iff.1 h]
  | applied owner c args =>
    obtain ⟨_, _, rfl, _⟩ := applied_beq_iff.1 h
    rfl
  | var v => rw [var_beq_iff.1 h]
  | wildcard lower upper =>
    obtain ⟨_, _, rfl, _⟩ := wildcard_beq_iff.1 h
    rfl

/-! ## An equivalence -/

theorem forall₂_imp_of_mem {R R' : Descriptor → Descriptor → Prop} {ds es : List Descriptor}
    (h : List.Forall₂ R ds es) (himp : ∀ d ∈ ds, ∀ e, R d e → R' d e) : List.Forall₂ R' ds es := by
  induction h with
  | nil => exact .nil
  | cons hd _ ih =>
    obtain ⟨himpd, himps⟩ := List.forall_mem_cons.1 himp
    exact .cons (himpd _ hd) (ih himps)

theorem SameSets.symm_of {ds es : List Descriptor} (h : SameSets ds es)
    (hsymm : ∀ d ∈ ds, ∀ e, (d == e) = true → (e == d) = true) : SameSets es ds := by
  refine ⟨fun e he => ?_, fun d hd => ?_⟩
  · obtain ⟨d, hd, hde⟩ := h.2 e he
    exact ⟨d, hd, hsymm d hd e hde⟩
  · obtain ⟨e, he, hde⟩ := h.1 d hd
    exact ⟨e, he, hsymm d hd e hde⟩

theorem beq_symm {d e : Descriptor} (h : d == e) : e == d := by
  induction d using Descriptor.induct generalizing e with
  | bare c =>
    rw [bare_beq_iff.1 h]
    exact bare_beq_iff.2 rfl
  | applied owner c args ho ha =>
    obtain ⟨owner', args', rfl, howner, hargs⟩ := applied_beq_iff.1 h
    refine applied_beq_iff.2 ⟨owner, args, rfl, ?_, ?_⟩
    · cases howner with
      | none => exact .none
      | some heq => exact .some (ho _ rfl heq)
    · exact List.Forall₂.flip (forall₂_imp_of_mem hargs fun a hmem b heq => ha a hmem heq)
  | var v =>
    rw [var_beq_iff.1 h]
    exact var_beq_iff.2 rfl
  | wildcard lower upper hl hu =>
    obtain ⟨lower', upper', rfl, hlower, hupper⟩ := wildcard_beq_iff.1 h
    exact wildcard_beq_iff.2 ⟨lower, upper, rfl, hlower.symm_of fun d hd e heq => hl d hd heq,
      hupper.symm_of fun d hd e heq => hu d hd heq⟩

theorem SameSets.trans_of {ds es fs : List Descriptor} (h : SameSets ds es) (h' : SameSets es fs)
    (htrans : ∀ d ∈ ds, ∀ e f, (d == e) = true → (e == f) = true → (d == f) = true) : SameSets ds fs := by
  refine ⟨fun d hd => ?_, fun f hf => ?_⟩
  · obtain ⟨e, he, hde⟩ := h.1 d hd
    obtain ⟨f, hf, hef⟩ := h'.1 e he
    exact ⟨f, hf, htrans d hd e f hde hef⟩
  · obtain ⟨e, he, hef⟩ := h'.2 f hf
    obtain ⟨d, hd, hde⟩ := h.2 e he
    exact ⟨d, hd, htrans d hd e f hde hef⟩

theorem beq_trans {d e f : Descriptor} (h : d == e) (h' : e == f) : d == f := by
  induction d using Descriptor.induct generalizing e f with
  | bare c =>
    rw [bare_beq_iff.1 h] at h'
    exact h'
  | applied owner c args ho ha =>
    obtain ⟨owner', args', rfl, howner, hargs⟩ := applied_beq_iff.1 h
    obtain ⟨owner'', args'', rfl, howner', hargs'⟩ := applied_beq_iff.1 h'
    refine applied_beq_iff.2 ⟨owner'', args'', rfl, ?_, ?_⟩
    · cases howner with
      | none => exact howner'
      | some heq =>
        cases howner' with
        | some heq' => exact .some (ho _ rfl heq heq')
    · clear h h' howner howner'
      induction hargs generalizing args'' with
      | nil => exact hargs'
      | cons heq _ ih =>
        obtain ⟨had, has⟩ := List.forall_mem_cons.1 ha
        cases hargs' with
        | cons heq' hrest => exact .cons (had heq heq') (ih has _ hrest)
  | var v =>
    rw [var_beq_iff.1 h] at h'
    exact h'
  | wildcard lower upper hl hu =>
    obtain ⟨lower', upper', rfl, hlower, hupper⟩ := wildcard_beq_iff.1 h
    obtain ⟨lower'', upper'', rfl, hlower', hupper'⟩ := wildcard_beq_iff.1 h'
    exact wildcard_beq_iff.2 ⟨lower'', upper'', rfl,
      hlower.trans_of hlower' fun d hd _ _ heq heq' => hl d hd heq heq',
      hupper.trans_of hupper' fun d hd _ _ heq heq' => hu d hd heq heq'⟩

instance : EquivBEq Descriptor where
  rfl := by
    intro d
    rw [beq_eq_same]
    exact same_refl d
  symm := beq_symm
  trans := beq_trans

theorem SameSets.refl (ds : List Descriptor) : SameSets ds ds :=
  ⟨fun d hd => ⟨d, hd, BEq.rfl⟩, fun d hd => ⟨d, hd, BEq.rfl⟩⟩

theorem SameSets.eq_nil_iff {ds es : List Descriptor} (h : SameSets ds es) : ds = [] ↔ es = [] := by
  constructor
  · rintro rfl
    exact List.eq_nil_iff_forall_not_mem.2 fun e he => by simpa using h.2 e he
  · rintro rfl
    exact List.eq_nil_iff_forall_not_mem.2 fun d hd => by simpa using h.1 d hd

/-! ## Variables of the parts -/

section Vars

variable {v : TypeVar} {d : Descriptor}

theorem mem_vars_owner {c : ClassId} {args : List Descriptor} (h : v ∈ d.vars) :
    v ∈ (applied (some d) c args).vars := by
  simp [vars, ownerVars, h]

theorem mem_vars_arg {owner : Option Descriptor} {c : ClassId} {args : List Descriptor} (hd : d ∈ args)
    (h : v ∈ d.vars) : v ∈ (applied owner c args).vars := by
  simp only [vars, listVars_eq, List.mem_append, List.mem_flatMap]
  exact .inr ⟨d, hd, h⟩

theorem mem_vars_lower {lower upper : List Descriptor} (hd : d ∈ lower) (h : v ∈ d.vars) :
    v ∈ (wildcard lower upper).vars := by
  simp only [vars, listVars_eq, List.mem_append, List.mem_flatMap]
  exact .inl ⟨d, hd, h⟩

theorem mem_vars_upper {lower upper : List Descriptor} (hd : d ∈ upper) (h : v ∈ d.vars) :
    v ∈ (wildcard lower upper).vars := by
  simp only [vars, listVars_eq, List.mem_append, List.mem_flatMap]
  exact .inr ⟨d, hd, h⟩

end Vars

/-! ## Putting in -/

theorem SameSets.map_of {f g : Descriptor → Descriptor} {ds es : List Descriptor} (h : SameSets ds es)
    (hfg : ∀ d ∈ ds, ∀ e, (d == e) = true → (f d == g e) = true) : SameSets (ds.map f) (es.map g) := by
  refine ⟨fun d' hd' => ?_, fun e' he' => ?_⟩
  · obtain ⟨d, hd, rfl⟩ := List.mem_map.1 hd'
    obtain ⟨e, he, hde⟩ := h.1 d hd
    exact ⟨g e, List.mem_map_of_mem he, hfg d hd e hde⟩
  · obtain ⟨e, he, rfl⟩ := List.mem_map.1 he'
    obtain ⟨d, hd, hde⟩ := h.2 e he
    exact ⟨f d, List.mem_map_of_mem hd, hfg d hd e hde⟩

theorem beq_subst {d e : Descriptor} {σ τ : Substitution} (h : d == e)
    (hv : ∀ v ∈ d.vars, Option.Rel (· == ·) (σ.get? v) (τ.get? v)) : d.subst σ == e.subst τ := by
  induction d using Descriptor.induct generalizing e with
  | bare c =>
    rw [bare_beq_iff.1 h]
    exact bare_beq_iff.2 rfl
  | applied owner c args ho ha =>
    obtain ⟨owner', args', rfl, howner, hargs⟩ := applied_beq_iff.1 h
    simp only [subst, substOwner_eq, substList_eq]
    refine applied_beq_iff.2 ⟨_, _, rfl, ?_, ?_⟩
    · cases howner with
      | none => exact .none
      | some heq => exact .some (ho _ rfl heq fun v hmem => hv v (mem_vars_owner hmem))
    · rw [List.forall₂_map_left_iff, List.forall₂_map_right_iff]
      exact forall₂_imp_of_mem hargs fun a hmem b heq =>
        ha a hmem heq fun v hmemv => hv v (mem_vars_arg hmem hmemv)
  | var v =>
    rw [var_beq_iff.1 h]
    have hrel := hv v (by simp [vars])
    simp only [subst]
    cases hσ : σ.get? v <;> cases hτ : τ.get? v <;> rw [hσ, hτ] at hrel
    · exact BEq.rfl
    · cases hrel
    · cases hrel
    · cases hrel with
      | some heq => exact heq
  | wildcard lower upper hl hu =>
    obtain ⟨lower', upper', rfl, hlower, hupper⟩ := wildcard_beq_iff.1 h
    simp only [subst, substList_eq]
    exact wildcard_beq_iff.2 ⟨_, _, rfl,
      hlower.map_of fun d hd _ heq => hl d hd heq fun v hmem => hv v (mem_vars_lower hd hmem),
      hupper.map_of fun d hd _ heq => hu d hd heq fun v hmem => hv v (mem_vars_upper hd hmem)⟩

theorem beq_subst_left {d e : Descriptor} (h : d == e) (σ : Substitution) : d.subst σ == e.subst σ := by
  refine beq_subst h fun v _ => ?_
  cases σ.get? v with
  | none => exact .none
  | some a => exact .some BEq.rfl

theorem subst_var {σ : Substitution} {v : TypeVar} {a : Descriptor} (h : σ.get? v = some a) :
    (Descriptor.var v).subst σ = a := by
  rw [subst, h]
  rfl

theorem subst_congr {d : Descriptor} {σ τ : Substitution} (h : ∀ v ∈ d.vars, σ.get? v = τ.get? v) :
    d.subst σ = d.subst τ := by
  induction d using Descriptor.induct with
  | bare c => rfl
  | applied owner c args ho ha =>
    simp only [subst, substOwner_eq, substList_eq, applied.injEq, true_and]
    constructor
    · cases owner with
      | none => rfl
      | some o => simp [ho o rfl fun v hmem => h v (mem_vars_owner hmem)]
    · exact List.map_congr_left fun a hmem => ha a hmem fun v hmemv => h v (mem_vars_arg hmem hmemv)
  | var v => rw [subst, subst, h v (by simp [vars])]
  | wildcard lower upper hl hu =>
    simp only [subst, substList_eq, wildcard.injEq]
    exact ⟨List.map_congr_left fun a hmem => hl a hmem fun v hmemv => h v (mem_vars_lower hmem hmemv),
      List.map_congr_left fun a hmem => hu a hmem fun v hmemv => h v (mem_vars_upper hmem hmemv)⟩

/-- Putting in twice is putting in what the second time makes of what was put in first. -/
theorem subst_subst {d : Descriptor} {σ τ τ' : Substitution}
    (h : ∀ v ∈ d.vars, ∃ a, τ.get? v = some a ∧ τ'.get? v = some (a.subst σ)) :
    (d.subst τ).subst σ = d.subst τ' := by
  induction d using Descriptor.induct with
  | bare c => rfl
  | applied owner c args ho ha =>
    simp only [subst, substOwner_eq, substList_eq, List.map_map, applied.injEq, true_and]
    constructor
    · cases owner with
      | none => rfl
      | some o => simp [ho o rfl fun v hmem => h v (mem_vars_owner hmem)]
    · exact List.map_congr_left fun a hmem => ha a hmem fun v hmemv => h v (mem_vars_arg hmem hmemv)
  | var v =>
    obtain ⟨a, hτ, hτ'⟩ := h v (by simp [vars])
    simp [subst, hτ, hτ']
  | wildcard lower upper hl hu =>
    simp only [subst, substList_eq, List.map_map, wildcard.injEq]
    exact ⟨List.map_congr_left fun a hmem => hl a hmem fun v hmemv => h v (mem_vars_lower hmem hmemv),
      List.map_congr_left fun a hmem => hu a hmem fun v hmemv => h v (mem_vars_upper hmem hmemv)⟩

end Generics.Descriptor

namespace Generics.Substitution

/-! ## Related substitutions -/

/-- Two substitutions bind the same variables, to descriptors that are related. -/
def Rel (P : Descriptor → Descriptor → Prop) (σ τ : Substitution) : Prop :=
  ∀ v, Option.Rel P (σ.get? v) (τ.get? v)

theorem rel_empty (P : Descriptor → Descriptor → Prop) : empty.Rel P empty := fun _ => .none

theorem Rel.insert {P : Descriptor → Descriptor → Prop} {σ τ : Substitution} {d e : Descriptor} (h : σ.Rel P τ)
    (v : TypeVar) (hde : P d e) : (σ.insert v d).Rel P (τ.insert v e) := by
  intro w
  rw [get?_insert, get?_insert]
  split
  · exact .some hde
  · exact h w

theorem Rel.insertAll {P : Descriptor → Descriptor → Prop} {σ τ : Substitution} {vs : List TypeVar}
    {ds es : List Descriptor} (h : σ.Rel P τ) (hargs : List.Forall₂ P ds es) :
    (σ.insertAll (vs.zip ds)).Rel P (τ.insertAll (vs.zip es)) := by
  induction hargs generalizing vs σ τ with
  | nil =>
    rw [List.zip_nil_right]
    exact h
  | cons hde _ ih =>
    cases vs with
    | nil => exact h
    | cons v vs => exact ih (h.insert v hde)

end Generics.Substitution
