import Generics.Proofs.Views

/-! # Regular types

A question about two types goes on to their views, owners and arguments and to the bounds of those arguments
that are wildcards: `Store.Visits` is the relation between a type and what questions about it may come to. A type
is *regular* if all types that it visits are tidy:

* none is a wildcard: only an argument may be one, neither a bound nor an owner;
* an application has an owner if its class is inside another, and only then, and the owner does not bind the
  variables of that class anew;
* a wildcard without upper bounds is an argument for a parameter only if the bounds of this, if any, mention type
  variables.

It is *free of capture* if no view of a type visited has a wildcard argument of that type inside an argument: the
wildcard may only be an argument as a whole, as `T` is in `Sequence<T>` and not in `Sequence<Sequence<T>>`. -/

namespace Generics
set_option autoImplicit false

/-- A descriptor has a variable without the property `p` at most as an argument, of its own or of an owner. -/
inductive Descriptor.Plain (p : TypeVar → Prop) : Descriptor → Prop
  | fixed {d : Descriptor} (h : ∀ v ∈ d.vars, p v) : Plain p d
  | applied {owner : Option Descriptor} {c : ClassId} {args : List Descriptor}
      (ho : ∀ o, owner = some o → Plain p o) (ha : ∀ a ∈ args, (∃ v, a = .var v) ∨ ∀ v ∈ a.vars, p v) :
      Plain p (.applied owner c args)

/-- A variable is bound, and to a type all of whose variables have the property `P`. -/
def Substitution.ClosesOver (P : TypeVar → Prop) (σ : Substitution) (v : TypeVar) : Prop :=
  ∃ a, σ.get? v = some a ∧ ∀ w ∈ a.vars, P w

namespace Descriptor

theorem forall_vars_subst {P : TypeVar → Prop} {d : Descriptor} {σ : Substitution}
    (h : ∀ v ∈ d.vars, σ.ClosesOver P v) : ∀ w ∈ (d.subst σ).vars, P w := by
  induction d using Descriptor.induct with
  | bare c => simp [subst, vars]
  | applied owner c args ho ha =>
    intro w hw
    simp only [subst, substOwner_eq, substList_eq, vars, ownerVars_eq, listVars_eq, List.mem_append,
      List.mem_flatMap] at hw
    rcases hw with hw | ⟨a', ha', hw⟩
    · cases owner with
      | none => simp at hw
      | some o => exact ho o rfl (fun v hv => h v (mem_vars_owner hv)) w hw
    · obtain ⟨a, hmem, rfl⟩ := List.mem_map.1 ha'
      exact ha a hmem (fun v hv => h v (mem_vars_arg hmem hv)) w hw
  | var v =>
    obtain ⟨a, hget, ha⟩ := h v (by simp [vars])
    simpa [subst, hget] using ha
  | wildcard lower upper hl hu =>
    intro w hw
    simp only [subst, substList_eq, vars, listVars_eq, List.mem_append, List.mem_flatMap] at hw
    rcases hw with ⟨l', hl', hw⟩ | ⟨u', hu', hw⟩
    · obtain ⟨l, hmem, rfl⟩ := List.mem_map.1 hl'
      exact hl l hmem (fun v hv => h v (mem_vars_lower hmem hv)) w hw
    · obtain ⟨u, hmem, rfl⟩ := List.mem_map.1 hu'
      exact hu u hmem (fun v hv => h v (mem_vars_upper hmem hv)) w hw

theorem mem_vars_subst {d : Descriptor} {σ : Substitution} {v w : TypeVar} (hv : v ∈ d.vars)
    (hw : w ∈ ((σ.get? v).getD (.var v)).vars) : w ∈ (d.subst σ).vars := by
  induction d using Descriptor.induct with
  | bare c => simp [vars] at hv
  | applied owner c args ho ha =>
    simp only [vars, ownerVars_eq, listVars_eq, List.mem_append, List.mem_flatMap] at hv
    rw [subst, substOwner_eq, substList_eq]
    rcases hv with hv | ⟨a, hmem, hv⟩
    · cases owner with
      | none => simp at hv
      | some o => exact mem_vars_owner (ho o rfl hv)
    · exact mem_vars_arg (List.mem_map_of_mem hmem) (ha a hmem hv)
  | var u =>
    rw [vars, List.mem_singleton] at hv
    subst hv
    exact hw
  | wildcard lower upper hl hu =>
    simp only [vars, listVars_eq, List.mem_append, List.mem_flatMap] at hv
    rw [subst, substList_eq, substList_eq]
    rcases hv with ⟨l, hmem, hv⟩ | ⟨u, hmem, hv⟩
    · exact mem_vars_lower (List.mem_map_of_mem hmem) (hl l hmem hv)
    · exact mem_vars_upper (List.mem_map_of_mem hmem) (hu u hmem hv)

theorem vars_eq_nil_of_subset {d e : Descriptor} (hsub : ∀ v, v ∈ e.vars → v ∈ d.vars) (h : d.vars = []) :
    e.vars = [] := by
  refine List.eq_nil_iff_forall_not_mem.2 fun v hv => ?_
  have hmem := hsub v hv
  simp [h] at hmem

theorem Plain.mono {p q : TypeVar → Prop} {d : Descriptor} (h : d.Plain p) (hpq : ∀ v, p v → q v) : d.Plain q := by
  induction h with
  | fixed hp => exact .fixed fun v hv => hpq v (hp v hv)
  | applied _ ha ih => exact .applied ih fun a hmem => (ha a hmem).imp_right fun hp v hv => hpq v (hp v hv)

end Descriptor

namespace Store

open Result

variable {s : Store}

/-! ## The variables of what is reached -/

section Variables

variable {P : TypeVar → Prop}

theorem closesOver_insertAll {σ : Substitution} {vs : List TypeVar} {ds : List Descriptor} {v : TypeVar}
    (hl : vs.length = ds.length) (hds : ∀ d ∈ ds, ∀ w ∈ d.vars, P w) (h : v ∈ vs ∨ σ.ClosesOver P v) :
    (σ.insertAll (vs.zip ds)).ClosesOver P v := by
  by_cases hv : v ∈ vs
  · obtain ⟨d, hd, hget⟩ := Substitution.get?_insertAll_of_mem (σ := σ) hv hl
    exact ⟨d, hget, hds d hd⟩
  · obtain ⟨d, hget, hd⟩ := h.resolve_left hv
    exact ⟨d, (Substitution.get?_insertAll_of_not_mem hv).trans hget, hd⟩

/-- An owner may bind a variable anew, but then to a type of which the same is true. -/
theorem closesOver_bindingsFrom {d : Descriptor} {σ σ' : Substitution} {v : TypeVar} (hd : ∀ w ∈ d.vars, P w)
    (hσ : s.bindingsFrom σ d = .ok σ')
    (h : σ.ClosesOver P v ∨ ∃ c decl, d.Binds c ∧ s.get? c = some decl ∧ v ∈ decl.ownVars c) :
    σ'.ClosesOver P v := by
  induction d using Descriptor.induct generalizing σ with
  | bare c =>
    cases hσ
    rcases h with h | ⟨_, _, hbinds, _⟩
    · exact h
    · cases hbinds
  | applied owner c args ho ha =>
    rw [bindingsFrom, bind_eq_ok_iff] at hσ
    obtain ⟨decl, hdecl, hσ⟩ := hσ
    split at hσ
    · cases hσ
    · rename_i hl
      have hlen : (decl.ownVars c).length = args.length := by
        rw [ClassDecl.ownVars, List.length_map]
        exact Decidable.not_not.1 hl
      have hargs : ∀ a ∈ args, ∀ w ∈ a.vars, P w := fun a hmem w hw => hd w (Descriptor.mem_vars_arg hmem hw)
      have hown : v ∈ decl.ownVars c ∨ σ.ClosesOver P v →
          (σ.insertAll ((decl.ownVars c).zip args)).ClosesOver P v := closesOver_insertAll hlen hargs
      cases owner with
      | none =>
        cases hσ
        rcases h with h | ⟨_, decl', hbinds, hdecl', hv⟩
        · exact hown (.inr h)
        · cases hbinds
          rw [require_eq_ok_iff.1 hdecl] at hdecl'
          cases hdecl'
          exact hown (.inl hv)
      | some o =>
        refine ho o rfl (fun w hw => hd w (Descriptor.mem_vars_owner hw)) hσ ?_
        rcases h with h | ⟨c', decl', hbinds, hdecl', hv⟩
        · exact .inl (hown (.inr h))
        · cases hbinds with
          | here =>
            rw [require_eq_ok_iff.1 hdecl] at hdecl'
            cases hdecl'
            exact .inl (hown (.inl hv))
          | owner hbinds => exact .inr ⟨c', decl', hbinds, hdecl', hv⟩
  | var w =>
    cases hσ
    rcases h with h | ⟨_, _, hbinds, _⟩
    · exact h
    · cases hbinds
  | wildcard lower upper =>
    cases hσ
    rcases h with h | ⟨_, _, hbinds, _⟩
    · exact h
    · cases hbinds

theorem OwnSupertypes.forall_vars_step (ho : s.OwnSupertypes) {d e : Descriptor} (hd : ∀ w ∈ d.vars, P w)
    (h : s.Step d e) : ∀ w ∈ e.vars, P w := by
  cases h with
  | opened hc hp hmem hsup => simp [Descriptor.vars]
  | @bound _ c decl supertype ρ hraw hc hopen hmem hρ =>
    obtain ⟨σ, hσ, hsame⟩ := hρ.exists_bindingsOf
    rw [hsame]
    refine Descriptor.forall_vars_subst fun v hv => ?_
    have hown := ho c decl hc supertype hmem v hv
    cases d with
    | bare c' =>
      cases hraw
      simp [ClassDecl.ownVars, hopen rfl] at hown
    | applied owner c' args =>
      cases hraw
      exact closesOver_bindingsFrom hd hσ (.inr ⟨c, decl, .here owner args, hc, hown⟩)
    | var w => cases hraw
    | wildcard lower upper => cases hraw

theorem OwnSupertypes.forall_vars_reaches (ho : s.OwnSupertypes) {d e : Descriptor} (hd : ∀ w ∈ d.vars, P w)
    (h : s.Reaches d e) : ∀ w ∈ e.vars, P w := by
  induction h with
  | refl => exact hd
  | tail _ hlast ih => exact ho.forall_vars_step ih hlast

end Variables

theorem OwnSupertypes.vars_reaches (ho : s.OwnSupertypes) {d e : Descriptor} (hd : d.vars = [])
    (h : s.Reaches d e) : e.vars = [] :=
  List.eq_nil_iff_forall_not_mem.2 (ho.forall_vars_reaches (P := fun _ => False) (by simp [hd]) h)

/-! ## What is visited -/

/-- From a type to those that a question about it may come to next. -/
inductive Leads (s : Store) : Descriptor → Descriptor → Prop
  | step {d e : Descriptor} (h : s.Step d e) : Leads s d e
  | owner (o : Descriptor) (c : ClassId) (args : List Descriptor) : Leads s (.applied (some o) c args) o
  | arg (owner : Option Descriptor) (c : ClassId) {args : List Descriptor} {a : Descriptor} (ha : a ∈ args)
      (hw : ∀ lower upper, a ≠ .wildcard lower upper) : Leads s (.applied owner c args) a
  | lower (owner : Option Descriptor) (c : ClassId) {args lower upper : List Descriptor} {l : Descriptor}
      (ha : .wildcard lower upper ∈ args) (hl : l ∈ lower) : Leads s (.applied owner c args) l
  | upper (owner : Option Descriptor) (c : ClassId) {args lower upper : List Descriptor} {u : Descriptor}
      (ha : .wildcard lower upper ∈ args) (hu : u ∈ upper) : Leads s (.applied owner c args) u

def Visits (s : Store) : Descriptor → Descriptor → Prop := Relation.ReflTransGen s.Leads

theorem Reaches.visits {d e : Descriptor} (h : s.Reaches d e) : s.Visits d e :=
  Relation.ReflTransGen.mono (fun _ _ hstep => .step hstep) _ _ h

/-! ## Tidy types -/

/-- What is asked of each type visited. -/
structure Tidy (s : Store) (d : Descriptor) : Prop where
  notWildcard : ∀ lower upper, d ≠ .wildcard lower upper
  owned : ∀ owner c args decl, d = .applied owner c args → s.get? c = some decl →
    owner.isSome = decl.enclosing.isSome
  keepsOwn : d.KeepsOwn
  bounded : ∀ owner c args decl, d = .applied owner c args → s.get? c = some decl →
    ∀ (i : Nat) lower param, args[i]? = some (.wildcard lower []) → decl.params[i]? = some param →
      ∀ bound ∈ param.bounds, bound.hasVars

def Regular (s : Store) (d : Descriptor) : Prop := ∀ e, s.Visits d e → s.Tidy e

/-- No wildcard argument is put inside an argument of a supertype. -/
def Uncaptured (s : Store) (d : Descriptor) : Prop :=
  ∀ owner c args decl, d = .applied owner c args → s.get? c = some decl → ∀ supertype ∈ decl.supertypes,
    supertype.Plain fun v => ∀ lower upper, (decl.ownBindings c args).get? v ≠ some (.wildcard lower upper)

def CaptureFree (s : Store) (d : Descriptor) : Prop := ∀ e, s.Visits d e → s.Uncaptured e

theorem Regular.visits {d e : Descriptor} (h : s.Regular d) (hd : s.Visits d e) : s.Regular e :=
  fun _ he => h _ (hd.trans he)

theorem CaptureFree.visits {d e : Descriptor} (h : s.CaptureFree d) (hd : s.Visits d e) : s.CaptureFree e :=
  fun _ he => h _ (hd.trans he)

/-- A property of an argument or, if it is a wildcard, of its bounds. -/
def ArgAll (P : Descriptor → Prop) : Descriptor → Prop
  | .wildcard lower upper => (∀ l ∈ lower, P l) ∧ ∀ u ∈ upper, P u
  | d => P d

theorem argAll_of_leads {P : Descriptor → Prop} {owner : Option Descriptor} {c : ClassId}
    {args : List Descriptor} (h : ∀ e, s.Leads (.applied owner c args) e → P e) : ∀ a ∈ args, ArgAll P a := by
  intro a ha
  cases a with
  | wildcard lower upper => exact ⟨fun l hl => h l (.lower owner c ha hl), fun u hu => h u (.upper owner c ha hu)⟩
  | bare c' => exact h _ (.arg owner c ha fun _ _ heq => by cases heq)
  | applied owner' c' args' => exact h _ (.arg owner c ha fun _ _ heq => by cases heq)
  | var v => exact h _ (.arg owner c ha fun _ _ heq => by cases heq)

/-! ## Regular types that are well-formed and without variables -/

structure Clean (s : Store) (d : Descriptor) : Prop where
  wellFormed : s.WellFormed d
  closed : d.vars = []
  regular : s.Regular d

section Clean

variable {d e : Descriptor}

theorem Clean.tidy (h : s.Clean d) : s.Tidy d := h.regular d .refl

theorem Clean.exists_raw? (h : s.Clean d) : ∃ c, d.raw? = some c := by
  cases d with
  | bare c => exact ⟨c, rfl⟩
  | applied owner c args => exact ⟨c, rfl⟩
  | var v => simpa [Descriptor.vars] using h.closed
  | wildcard lower upper => exact absurd rfl (h.tidy.notWildcard lower upper)

theorem Coherent.clean_leads (hs : s.Coherent) (hd : s.Clean d) (h : s.Leads d e) : s.Clean e := by
  have hregular : s.Regular e := hd.regular.visits (.single h)
  have hwf := hd.wellFormed
  have hclosed := hd.closed
  cases h with
  | step hstep => exact ⟨hs.wellFormed_step hwf hstep, hs.own.vars_reaches hclosed (.single hstep), hregular⟩
  | owner _ c args =>
    have hvars := Descriptor.vars_eq_nil_of_subset (fun _ => Descriptor.mem_vars_owner) hclosed
    cases hwf with
    | applied hc hl ho ha => exact ⟨ho _ rfl, hvars, hregular⟩
  | arg owner c hmem hw =>
    have hvars := Descriptor.vars_eq_nil_of_subset (fun _ => Descriptor.mem_vars_arg hmem) hclosed
    cases hwf with
    | applied hc hl ho ha => exact ⟨ha _ hmem, hvars, hregular⟩
  | lower owner c hmem hlower =>
    have hvars := Descriptor.vars_eq_nil_of_subset
      (fun _ hv => Descriptor.mem_vars_arg hmem (Descriptor.mem_vars_lower hlower hv)) hclosed
    cases hwf with
    | applied hc hl ho ha =>
      cases ha _ hmem with
      | wildcard hwl hwu => exact ⟨hwl _ hlower, hvars, hregular⟩
  | upper owner c hmem hupper =>
    have hvars := Descriptor.vars_eq_nil_of_subset
      (fun _ hv => Descriptor.mem_vars_arg hmem (Descriptor.mem_vars_upper hupper hv)) hclosed
    cases hwf with
    | applied hc hl ho ha =>
      cases ha _ hmem with
      | wildcard hwl hwu => exact ⟨hwu _ hupper, hvars, hregular⟩

theorem Coherent.clean_visits (hs : s.Coherent) (hd : s.Clean d) (h : s.Visits d e) : s.Clean e := by
  induction h with
  | refl => exact hd
  | tail _ hlast ih => exact hs.clean_leads ih hlast

theorem Coherent.clean_reaches (hs : s.Coherent) (hd : s.Clean d) (h : s.Reaches d e) : s.Clean e :=
  hs.clean_visits hd h.visits

theorem Coherent.view_unique (hs : s.Coherent) (hd : s.Clean d) {e' : Descriptor} (h : s.Reaches d e)
    (h' : s.Reaches d e') (hraw : e.raw? = e'.raw?) : e == e' :=
  hs.reaches_unique hd.wellFormed (fun _ hy => (hs.clean_reaches hd hy).tidy.keepsOwn) h h' hraw

end Clean

/-! ## The class above all others -/

theorem Coherent.not_parent_root (hs : s.Coherent) {r p : ClassId} (hr : s.root = some r) : ¬ s.Parent r p := by
  intro hparent
  obtain ⟨r', hr', hall⟩ := hs.rooted
  rw [hr] at hr'
  cases hr'
  obtain ⟨decl, hp⟩ := hs.parent_declared hparent
  exact hs.acyclic r (Relation.TransGen.head' hparent (hall p (by simp [contains, hp])))

theorem Coherent.below_root (hs : s.Coherent) {r : ClassId} {d : Descriptor} (hr : s.root = some r)
    (hd : s.Clean d) : ∃ b, d.raw? = some b ∧ s.Below b r := by
  obtain ⟨b, hb⟩ := hd.exists_raw?
  obtain ⟨r', hr', hall⟩ := hs.rooted
  rw [hr] at hr'
  cases hr'
  obtain ⟨decl, hdecl⟩ := hd.wellFormed.declared hb
  exact ⟨b, hb, hall b (by simp [contains, hdecl])⟩

theorem Coherent.eq_root_of_visits (hs : s.Coherent) {r : ClassId} {e : Descriptor} (hr : s.root = some r)
    (h : s.Visits (.bare r) e) : e = .bare r := by
  induction h with
  | refl => rfl
  | tail _ hlast ih =>
    subst ih
    cases hlast with
    | step hstep =>
      obtain ⟨c, p, hc, _, hparent⟩ := hstep.parent hs.nominal
      cases hc
      exact (hs.not_parent_root hr hparent).elim

theorem Coherent.clean_root (hs : s.Coherent) {r : ClassId} {d : Descriptor} (hr : s.root = some r)
    (hd : s.Clean d) : s.Clean (.bare r) := by
  obtain ⟨b, hb, hbelow⟩ := hs.below_root hr hd
  have hdecl : ∃ decl, s.get? r = some decl := by
    rcases Relation.ReflTransGen.cases_tail hbelow with rfl | ⟨_, _, hparent⟩
    · exact hd.wellFormed.declared hb
    · exact hs.parent_declared hparent
  obtain ⟨decl, hdecl⟩ := hdecl
  refine ⟨.bare hdecl, rfl, fun e he => ?_⟩
  rw [hs.eq_root_of_visits hr he]
  exact ⟨fun _ _ h => (by cases h), fun _ _ _ _ h => (by cases h), fun _ _ _ h => (by cases h),
    fun _ _ _ _ h => (by cases h)⟩

end Store

end Generics
