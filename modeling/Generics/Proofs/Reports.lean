import Generics.Proofs.Interchange
import Generics.Proofs.Replacement
import Generics.Proofs.Room
import Generics.Proofs.Texts

/-! # Reports on types that are the same

Types that are the same may list the bounds of a wildcard in another order. A check that goes through a list stops at
the bound that decides it, so in one order it may come to an answer where in the other it first meets a bound that it
cannot deal with. That is all there is to it: `SameReport` says of two computations that their answers are related and
their faults the same, unless one of them ends in a fault of a check. Bounds are checked and placeholders filled with
the same reports, whichever of two types that are the same is at hand. By name there is one exception, since the
variables of a template come up in the order in which they are listed: the first to be complained of need not be the
same. But then there is a complaint on both sides (`together_actualize_map`). -/

namespace Generics
set_option autoImplicit false

open Result

/-! ## Reports -/

/-- Related answers or the same fault. A fault of a check may stand against anything. -/
def SameReport {α β : Type} (R : α → β → Prop) : Result α → Result β → Prop
  | .ok a, .ok b => R a b
  | .ok _, .error fault => fault.isOfCheck
  | .error fault, .ok _ => fault.isOfCheck
  | .error fault, .error fault' => fault = fault' ∨ fault.isOfCheck ∨ fault'.isOfCheck

namespace SameReport

variable {α β γ δ : Type} {R : α → β → Prop} {S : γ → δ → Prop} {x : Result α} {y : Result β}

theorem of_left {fault : Fault} (h : fault.isOfCheck) (y : Result β) : SameReport R (.error fault) y := by
  cases y with
  | ok b => exact h
  | error fault' => exact .inr (.inl h)

theorem of_right {fault : Fault} (h : fault.isOfCheck) (x : Result α) : SameReport R x (.error fault) := by
  cases x with
  | ok a => exact h
  | error fault' => exact .inr (.inr h)

theorem bind {f : α → Result γ} {g : β → Result δ} (h : SameReport R x y)
    (hfg : ∀ a b, x = .ok a → R a b → SameReport S (f a) (g b)) : SameReport S (x >>= f) (y >>= g) := by
  cases x with
  | ok a =>
    cases y with
    | ok b => exact hfg a b rfl h
    | error fault => exact of_right h (f a)
  | error fault =>
    cases y with
    | ok b => exact of_left h (g b)
    | error fault' => exact h

theorem of_agree (h : Agree R x y) (hx : FailsAsCheck x) (hy : FailsAsCheck y) : SameReport R x y := by
  cases x with
  | error fault => exact of_left hx y
  | ok a =>
    cases y with
    | error fault => exact hy
    | ok b => exact h a b rfl rfl

theorem of_failsAsCheck (hx : FailsAsCheck x) (hy : FailsAsCheck y) : SameReport (fun _ _ => True) x y :=
  of_agree (fun _ _ _ _ => trivial) hx hy

end SameReport

/-! ## Loops -/

namespace Result

def Relator.reports : Relator where
  Holds := SameReport
  ok h := h
  error _ := .inl rfl
  bind := SameReport.bind

variable {α β γ δ σ τ : Type} (L : Relator) {R : α → β → Prop} {S : γ → δ → Prop} {T : σ → τ → Prop}

theorem Relator.forM {f g : α → Result Unit} {l : List α} (h : ∀ a ∈ l, L.Holds (· = ·) (f a) (g a)) :
    L.Holds (· = ·) (l.forM f) (l.forM g) := by
  induction l with
  | nil => exact L.ok rfl
  | cons a l ih =>
    obtain ⟨ha, hl⟩ := List.forall_mem_cons.1 h
    exact L.bind ha fun _ _ _ _ => ih hl

theorem Relator.mapM {f : α → Result γ} {g : β → Result δ} {l : List α} {l' : List β}
    (h : List.Forall₂ (fun a b => L.Holds S (f a) (g b)) l l') :
    L.Holds (List.Forall₂ S) (l.mapM f) (l'.mapM g) := by
  induction h with
  | nil => exact L.ok .nil
  | cons hab _ ih =>
    rw [List.mapM_cons, List.mapM_cons]
    exact L.bind hab fun _ _ _ hS => L.bind ih fun _ _ _ hrest => L.ok (.cons hS hrest)

theorem Relator.foldlM {f : σ → α → Result σ} {g : τ → β → Result τ} {l : List α} {l' : List β} {m : σ} {n : τ}
    (h : List.Forall₂ (fun a b => ∀ m n, T m n → L.Holds T (f m a) (g n b)) l l') (hT : T m n) :
    L.Holds T (l.foldlM f m) (l'.foldlM g n) := by
  induction h generalizing m n with
  | nil => exact L.ok hT
  | cons hab _ ih =>
    rw [List.foldlM_cons, List.foldlM_cons]
    exact L.bind (hab m n hT) fun _ _ _ hT => ih hT

theorem forall₂_zip {l : List α} {l' : List β} {r : List γ} {r' : List δ} (h : List.Forall₂ R l l')
    (h' : List.Forall₂ S r r') : List.Forall₂ (fun p q => R p.1 q.1 ∧ S p.2 q.2) (l.zip r) (l'.zip r') := by
  induction h generalizing r r' with
  | nil => exact .nil
  | cons hR _ ih =>
    cases h' with
    | nil => exact .nil
    | cons hS h' => exact .cons ⟨hR, hS⟩ (ih h')

/-- From related states, the two come to related answers and to related states again. -/
def Relator.Runs (R : α → β → Prop) (T : σ → τ → Prop) (x : StateT σ Result α) (y : StateT τ Result β) : Prop :=
  ∀ m n, T m n → L.Holds (fun p q => R p.1 q.1 ∧ T p.2 q.2) (x.run m) (y.run n)

variable {L}

theorem Relator.Runs.pure {a : α} {b : β} (h : R a b) : L.Runs R T (pure a) (pure b) := fun _ _ hT => L.ok ⟨h, hT⟩

theorem Relator.Runs.bind {x : StateT σ Result α} {y : StateT τ Result β} {f : α → StateT σ Result γ}
    {g : β → StateT τ Result δ} (h : L.Runs R T x y) (hfg : ∀ a b, R a b → L.Runs S T (f a) (g b)) :
    L.Runs S T (x >>= f) (y >>= g) := by
  intro m n hT
  rw [StateT.run_bind, StateT.run_bind]
  refine L.bind (h m n hT) ?_
  rintro ⟨a, m⟩ ⟨b, n⟩ _ ⟨hR, hT⟩
  exact hfg a b hR m n hT

theorem Relator.Runs.mapM {f : α → StateT σ Result γ} {g : β → StateT τ Result δ} {l : List α} {l' : List β}
    (h : List.Forall₂ (fun a b => L.Runs S T (f a) (g b)) l l') :
    L.Runs (List.Forall₂ S) T (l.mapM f) (l'.mapM g) := by
  induction h with
  | nil => exact Runs.pure .nil
  | cons hab _ ih =>
    rw [List.mapM_cons, List.mapM_cons]
    exact hab.bind fun _ _ hS => ih.bind fun _ _ hrest => Runs.pure (.cons hS hrest)

end Result

/-! ## What types that are the same have in common -/

namespace Descriptor

theorem sameSets_of_forall₂ {ds es : List Descriptor} (h : List.Forall₂ (· == ·) ds es) : SameSets ds es := by
  induction h with
  | nil => exact .refl []
  | @cons d e ds es hde _ ih =>
    refine ⟨List.forall_mem_cons.2 ⟨⟨e, List.mem_cons_self, hde⟩, fun x hx => ?_⟩,
      List.forall_mem_cons.2 ⟨⟨d, List.mem_cons_self, hde⟩, fun y hy => ?_⟩⟩
    · obtain ⟨y, hy, hxy⟩ := ih.1 x hx
      exact ⟨y, List.mem_cons_of_mem e hy, hxy⟩
    · obtain ⟨x, hx, hxy⟩ := ih.2 y hy
      exact ⟨x, List.mem_cons_of_mem d hx, hxy⟩

theorem mem_vars_of_beq {d e : Descriptor} (h : d == e) {v : TypeVar} (hv : v ∈ d.vars) : v ∈ e.vars := by
  induction d using Descriptor.induct generalizing e with
  | bare c => simp [vars] at hv
  | applied owner c args ho ha =>
    obtain ⟨owner', args', rfl, howner, hargs⟩ := applied_beq_iff.1 h
    rw [vars, ownerVars_eq, listVars_eq, List.mem_append, List.mem_flatMap] at hv
    rcases hv with hv | ⟨a, hmem, hv⟩
    · cases howner with
      | none => simp at hv
      | some heq => exact mem_vars_owner (ho _ rfl heq hv)
    · obtain ⟨b, hb, heq⟩ := (sameSets_of_forall₂ hargs).1 a hmem
      exact mem_vars_arg hb (ha a hmem heq hv)
  | var w => rwa [var_beq_iff.1 h]
  | wildcard lower upper hl hu =>
    obtain ⟨lower', upper', rfl, hlower, hupper⟩ := wildcard_beq_iff.1 h
    rw [vars, listVars_eq, listVars_eq, List.mem_append, List.mem_flatMap, List.mem_flatMap] at hv
    rcases hv with ⟨l, hmem, hv⟩ | ⟨u, hmem, hv⟩
    · obtain ⟨l', hl', heq⟩ := hlower.1 l hmem
      exact mem_vars_lower hl' (hl l hmem heq hv)
    · obtain ⟨u', hu', heq⟩ := hupper.1 u hmem
      exact mem_vars_upper hu' (hu u hmem heq hv)

theorem mem_vars_iff_of_beq {d e : Descriptor} (h : d == e) (v : TypeVar) : v ∈ d.vars ↔ v ∈ e.vars :=
  ⟨mem_vars_of_beq h, mem_vars_of_beq (beq_symm h)⟩

theorem vars_eq_nil_iff_of_beq {d e : Descriptor} (h : d == e) : d.vars = [] ↔ e.vars = [] := by
  simp only [List.eq_nil_iff_forall_not_mem, mem_vars_iff_of_beq h]

theorem hasVars_eq_of_beq {d e : Descriptor} (h : d == e) : d.hasVars = e.hasVars := by
  have hempty : d.vars.isEmpty = e.vars.isEmpty := by
    rw [Bool.eq_iff_iff, List.isEmpty_iff, List.isEmpty_iff]
    exact vars_eq_nil_iff_of_beq h
  rw [hasVars_eq, hasVars_eq, hempty]

theorem SameSets.listNesting_le {ds es : List Descriptor} (h : SameSets ds es)
    (hle : ∀ d ∈ ds, ∀ e, (d == e) = true → d.nesting ≤ e.nesting) : listNesting ds ≤ listNesting es := by
  refine listNesting_le_iff.2 fun d hd => ?_
  obtain ⟨e, he, heq⟩ := h.1 d hd
  exact (hle d hd e heq).trans (nesting_le_listNesting he)

theorem nesting_le_of_beq {d e : Descriptor} (h : d == e) : d.nesting ≤ e.nesting := by
  induction d using Descriptor.induct generalizing e with
  | bare c => rw [bare_beq_iff.1 h]
  | applied owner c args ho ha =>
    obtain ⟨owner', args', rfl, howner, hargs⟩ := applied_beq_iff.1 h
    have howners : ownerNesting owner ≤ ownerNesting owner' := by
      cases howner with
      | none => exact le_rfl
      | some heq => exact ho _ rfl heq
    have hlist := (sameSets_of_forall₂ hargs).listNesting_le fun d hd _ heq => ha d hd heq
    rw [nesting, nesting]
    omega
  | var v => rw [var_beq_iff.1 h]
  | wildcard lower upper hl hu =>
    obtain ⟨lower', upper', rfl, hlower, hupper⟩ := wildcard_beq_iff.1 h
    have hlows := hlower.listNesting_le fun d hd _ heq => hl d hd heq
    have hups := hupper.listNesting_le fun d hd _ heq => hu d hd heq
    rw [nesting, nesting]
    omega

theorem nesting_eq_of_beq {d e : Descriptor} (h : d == e) : d.nesting = e.nesting :=
  le_antisymm (nesting_le_of_beq h) (nesting_le_of_beq (beq_symm h))

end Descriptor

theorem Store.WellFormed.of_beq {s : Store} {d e : Descriptor} (hd : s.WellFormed d) (h : d == e) :
    s.WellFormed e := by
  induction hd generalizing e with
  | bare hc =>
    rw [Descriptor.bare_beq_iff.1 h]
    exact .bare hc
  | applied hc hl _ _ ho ha =>
    obtain ⟨owner', args', rfl, howner, hargs⟩ := Descriptor.applied_beq_iff.1 h
    refine .applied hc (hl.trans hargs.length_eq) ?_ fun b hb => ?_
    · rintro o rfl
      cases howner with
      | some heq => exact ho _ rfl heq
    · obtain ⟨a, hmem, heq⟩ := (Descriptor.sameSets_of_forall₂ hargs).2 b hb
      exact ha a hmem heq
  | var v =>
    rw [Descriptor.var_beq_iff.1 h]
    exact .var v
  | wildcard _ _ hl hu =>
    obtain ⟨lower', upper', rfl, hlower, hupper⟩ := Descriptor.wildcard_beq_iff.1 h
    refine .wildcard (fun l' hl' => ?_) fun u' hu' => ?_
    · obtain ⟨l, hmem, heq⟩ := hlower.2 l' hl'
      exact hl l hmem heq
    · obtain ⟨u, hmem, heq⟩ := hupper.2 u' hu'
      exact hu u hmem heq

namespace Store

variable {s : Store} {a a' d e bound bound' : Descriptor} {known known' : Substitution}

/-! ## Walks and checks of bounds -/

theorem sameReport_asSupertype (h : d == e) (c : ClassId) :
    SameReport SameFound (s.asSupertype d c) (s.asSupertype e c) :=
  .of_agree (agree_asSupertype h c) (s.failsAsCheck_asSupertype d c) (s.failsAsCheck_asSupertype e c)

theorem sameReport_isAssignable {t t' : Descriptor} (ht : t == t') (hd : d == e) :
    SameReport (· = ·) (s.isAssignable t d) (s.isAssignable t' e) :=
  .of_agree (s.agree_isAssignable ht hd) (s.failsAsCheck_isAssignable t d) (s.failsAsCheck_isAssignable t' e)

theorem sameReport_admits {lower lower' upper upper' : List Descriptor} (hl : Descriptor.SameSets lower lower')
    (hu : Descriptor.SameSets upper upper') (ha : a == a') :
    SameReport (· = ·) (s.admits ⟨lower, upper⟩ a) (s.admits ⟨lower', upper'⟩ a') :=
  .of_agree (agree_wildcardContains s.agree_isAssignable hl hu ha) (s.failsAsCheck_admits _ a)
    (s.failsAsCheck_admits _ a')

theorem agree_leavesRoom {lower lower' upper upper' : List Descriptor} (hl : Descriptor.SameSets lower lower')
    (hu : Descriptor.SameSets upper upper') (hb : bound == bound') :
    Agree (· = ·) (s.leavesRoom ⟨lower, upper⟩ bound) (s.leavesRoom ⟨lower', upper'⟩ bound') := by
  refine (agree_allM_sets hu fun u u' heq => ?_).and (agree_allM_sets hl fun _ _ heq => s.agree_isAssignable hb heq)
  refine (s.agree_isAssignable hb heq).bind fun below below' hbelow => ?_
  cases hbelow
  cases below with
  | true => exact agree_ok rfl
  | false => exact s.agree_isAssignable heq hb

theorem isWildcard_iff_of_beq (h : d == e) : d.IsWildcard ↔ e.IsWildcard :=
  ⟨isWildcard_of_beq h, isWildcard_of_beq (BEq.symm h)⟩

theorem fitsBound_of_not_isWildcard (h : ¬ a.IsWildcard) : s.fitsBound a bound = s.isAssignable bound a := by
  cases a with
  | wildcard lower upper => exact absurd ⟨lower, upper, rfl⟩ h
  | _ => rfl

theorem agree_fitsBound (ha : a == a') (hb : bound == bound') :
    Agree (· = ·) (s.fitsBound a bound) (s.fitsBound a' bound') := by
  by_cases hw : a.IsWildcard
  · obtain ⟨lower, upper, rfl⟩ := hw
    obtain ⟨lower', upper', rfl, hl, hu⟩ := Descriptor.wildcard_beq_iff.1 ha
    exact agree_leavesRoom hl hu hb
  · rw [fitsBound_of_not_isWildcard hw, fitsBound_of_not_isWildcard (mt (isWildcard_iff_of_beq ha).2 hw)]
    exact s.agree_isAssignable hb ha

theorem sameReport_apply (hknown : known.Rel (· == ·) known') (h : d == e) :
    SameReport (· == ·) (known.apply d) (known'.apply e) :=
  .of_agree (agree_apply hknown h) (failsAsCheck_apply known d) (failsAsCheck_apply known' e)

theorem sameReport_bindingsOf (h : d == e) :
    SameReport (Substitution.Rel (· == ·)) (s.bindingsOf d) (s.bindingsOf e) :=
  .of_agree (agree_bindingsOf h) (s.failsAsCheck_bindingsFrom .empty d) (s.failsAsCheck_bindingsFrom .empty e)

theorem rel_boundScope (v : TypeVar) (ha : a == a') (hknown : known.Rel (· == ·) known') :
    (boundScope v a known).Rel (· == ·) (boundScope v a' known') := by
  have hiff := isWildcard_iff_of_beq ha
  by_cases hw : a.IsWildcard
  · rw [boundScope_of_isWildcard hw, boundScope_of_isWildcard (hiff.1 hw)]
    exact hknown
  · rw [boundScope_of_not_isWildcard hw, boundScope_of_not_isWildcard (mt hiff.2 hw)]
    exact hknown.insert v ha

theorem sameReport_checkBounds (v : TypeVar) (ha : a == a') (hknown : known.Rel (· == ·) known') :
    SameReport (· = ·) (s.checkBounds v a known) (s.checkBounds v a' known') := by
  refine Relator.reports.forM fun declared _ => ?_
  refine (sameReport_apply (rel_boundScope v ha hknown) BEq.rfl).bind fun bound bound' _ hbound => ?_
  rw [Descriptor.hasVars_eq_of_beq hbound]
  split
  · exact rfl
  · have hfits : SameReport (· = ·) (s.fitsBound a bound) (s.fitsBound a' bound') :=
      .of_agree (agree_fitsBound ha hbound) (failsAsCheck_fitsBound a bound) (failsAsCheck_fitsBound a' bound')
    refine hfits.bind fun fits fits' _ heq => ?_
    cases heq
    cases fits with
    | true => exact rfl
    | false => exact .inl (by rw [s.text_eq_of_beq hbound, s.text_eq_of_beq ha])

theorem sameReport_checkWildcard {lower lower' upper upper' : List Descriptor}
    (hw : Descriptor.wildcard lower upper == .wildcard lower' upper') (ha : a == a')
    (hknown : known.Rel (· == ·) known') :
    SameReport (· = ·) (s.checkWildcard ⟨lower, upper⟩ a known) (s.checkWildcard ⟨lower', upper'⟩ a' known') := by
  refine (sameReport_apply hknown hw).bind fun resolved resolved' _ hresolved => ?_
  cases resolved with
  | wildcard l u =>
    obtain ⟨l', u', rfl, hl, hu⟩ := Descriptor.wildcard_beq_iff.1 hresolved
    dsimp only
    rw [Descriptor.hasVars_eq_of_beq hresolved]
    split
    · exact rfl
    · refine (sameReport_admits hl hu ha).bind fun fits fits' _ heq => ?_
      cases heq
      cases fits with
      | true => exact rfl
      | false =>
        refine .inl ?_
        rw [s.text_eq_of_beq hresolved, s.text_eq_of_beq ha]
        exact congrArg (fun t => Fault.boundViolation t _ _) (s.text_eq_of_beq hw)
  | bare c =>
    cases Descriptor.bare_beq_iff.1 hresolved
    exact rfl
  | applied owner c args =>
    obtain ⟨_, _, rfl, _⟩ := Descriptor.applied_beq_iff.1 hresolved
    exact rfl
  | var v =>
    cases Descriptor.var_beq_iff.1 hresolved
    exact rfl

/-! ## By name -/

theorem sameReport_replaceIn_byName {σ τ : Substitution} (h : σ.Rel (· == ·) τ) (levels : Nat) (d : Descriptor) :
    SameReport (· == ·) (d.replaceIn (s.byName σ) levels) (d.replaceIn (s.byName τ) levels) := by
  induction levels generalizing d with
  | zero => exact .inl rfl
  | succ levels ih =>
    have hlist : ∀ ds : List Descriptor, SameReport (List.Forall₂ (· == ·))
        (ds.mapM fun d => d.replaceIn (s.byName σ) levels) (ds.mapM fun d => d.replaceIn (s.byName τ) levels) :=
      fun ds => Relator.reports.mapM (List.forall₂_same.2 fun d _ => ih d)
    cases d with
    | bare c => exact BEq.rfl (a := Descriptor.bare c)
    | applied owner c args =>
      have howner : SameReport SameFound (owner.mapM fun d => d.replaceIn (s.byName σ) levels)
          (owner.mapM fun d => d.replaceIn (s.byName τ) levels) := by
        cases owner with
        | none => exact Option.Rel.none
        | some o => exact (ih o).bind fun _ _ _ heq => Option.Rel.some heq
      rw [Descriptor.replaceIn, Descriptor.replaceIn]
      refine howner.bind fun _ _ _ ho => (hlist args).bind fun _ _ _ ha => ?_
      exact Descriptor.applied_beq_iff.2 ⟨_, _, rfl, ho, ha⟩
    | var v =>
      have hv := h v
      simp only [Descriptor.replaceIn, byName, Source.ofMap]
      cases hσ : σ.get? v <;> cases hτ : τ.get? v <;> rw [hσ, hτ] at hv
      · exact BEq.rfl (a := Descriptor.var v)
      · cases hv
      · cases hv
      · cases hv with
        | some ha =>
          dsimp only
          rw [bind_assoc, bind_assoc]
          exact (sameReport_checkBounds v ha h).bind fun _ _ _ _ => ha
    | wildcard lower upper =>
      rw [Descriptor.replaceIn, Descriptor.replaceIn]
      refine (hlist lower).bind fun _ _ _ hl => (hlist upper).bind fun _ _ _ hu => ?_
      exact Descriptor.wildcard_beq_iff.2
        ⟨_, _, rfl, Descriptor.sameSets_of_forall₂ hl, Descriptor.sameSets_of_forall₂ hu⟩

/-- By name, maps that put in the same are reported on alike. -/
theorem sameReport_actualize_map {σ τ : Substitution} (h : σ.Rel (· == ·) τ) (d : Descriptor) :
    SameReport (· == ·) (s.actualize d (.map σ)) (s.actualize d (.map τ)) := by
  rw [actualize, actualize, Descriptor.filled_eq Result.endsAtFault, Descriptor.filled_eq Result.endsAtFault]
  exact sameReport_replaceIn_byName h maxActualizationDepth d

/-- By name, templates that are the same come to types that are the same, or neither comes to any. -/
theorem together_actualize_map (h : d == e) (σ : Substitution) :
    Together (· == ·) (s.actualize d (.map σ)) (s.actualize e (.map σ)) := by
  -- What is asked of a template is asked of its depth and of the set of its variables, not of their order.
  have htame : d.Tame maxActualizationDepth (s.Permits σ) ↔ e.Tame maxActualizationDepth (s.Permits σ) := by
    constructor
    · rintro ⟨hn, hv⟩
      exact ⟨Descriptor.nesting_eq_of_beq h ▸ hn, fun v hmem => hv v (Descriptor.mem_vars_of_beq (BEq.symm h) hmem)⟩
    · rintro ⟨hn, hv⟩
      exact ⟨(Descriptor.nesting_eq_of_beq h).symm ▸ hn, fun v hmem => hv v (Descriptor.mem_vars_of_beq h hmem)⟩
  cases hd : s.actualize d (.map σ) with
  | ok x =>
    obtain ⟨rfl, ht⟩ := actualize_byName_eq_ok_iff.1 hd
    rw [actualize_byName_eq_ok_iff.2 ⟨rfl, htame.1 ht⟩]
    exact .ok (Descriptor.beq_subst_left h σ)
  | error fault =>
    cases he : s.actualize e (.map σ) with
    | error fault' => exact .error fault fault'
    | ok y =>
      obtain ⟨rfl, ht⟩ := actualize_byName_eq_ok_iff.1 he
      rw [actualize_byName_eq_ok_iff.2 ⟨rfl, htame.2 ht⟩] at hd
      cases hd

/-! ## By position -/

/-- The items left are the same, as many were taken, and variables have taken the same. -/
structure SameSupply (x y : Supply) : Prop where
  items : List.Forall₂ (· == ·) x.items y.items
  taken : x.taken = y.taken
  bound : x.bound.Rel (· == ·) y.bound

theorem runs_takeForVar (v : TypeVar) :
    Relator.reports.Runs (· == ·) SameSupply (s.takeForVar v)
      (s.takeForVar v) := by
  rintro ⟨items, n, known⟩ ⟨items', n', known'⟩ ⟨hitems, htaken, hknown⟩
  cases htaken
  have hv := hknown v
  dsimp only at hitems hknown hv
  cases hx : known.get? v <;> cases hy : known'.get? v <;> rw [hx, hy] at hv
  · cases hitems with
    | nil =>
      rw [takeForVar_run_nil hx, takeForVar_run_nil hy]
      exact Relator.reports.error _
    | cons ha hitems =>
      rw [takeForVar_run hx, takeForVar_run hy]
      refine (sameReport_checkBounds v ha hknown).bind fun _ _ _ _ => ?_
      exact ⟨ha, hitems, rfl, hknown.insert v ha⟩
  · cases hv
  · cases hv
  · rw [takeForVar_run_of_bound hx, takeForVar_run_of_bound hy]
    cases hv with
    | some ha => exact ⟨ha, hitems, rfl, hknown⟩

theorem runs_takeForWildcard {lower lower' upper upper' : List Descriptor}
    (hw : Descriptor.wildcard lower upper == .wildcard lower' upper') :
    Relator.reports.Runs (· == ·) SameSupply (s.takeForWildcard ⟨lower, upper⟩)
      (s.takeForWildcard ⟨lower', upper'⟩) := by
  rintro ⟨items, n, known⟩ ⟨items', n', known'⟩ ⟨hitems, htaken, hknown⟩
  cases htaken
  dsimp only at hitems hknown
  cases hitems with
  | nil =>
    rw [takeForWildcard_run_nil, takeForWildcard_run_nil, s.text_eq_of_beq hw]
    exact Relator.reports.error _
  | cons ha hitems =>
    rw [takeForWildcard_run, takeForWildcard_run]
    refine (sameReport_checkWildcard hw ha hknown).bind fun _ _ _ _ => ?_
    exact ⟨ha, hitems, rfl, hknown⟩

theorem runs_replaceIn (levels : Nat) (h : d == e) :
    Relator.reports.Runs (· == ·) SameSupply (d.replaceIn s.byPosition levels) (e.replaceIn s.byPosition levels) := by
  induction levels generalizing d e with
  | zero => exact fun _ _ _ => Relator.reports.error _
  | succ levels ih =>
    cases d with
    | bare c =>
      rw [Descriptor.bare_beq_iff.1 h, Descriptor.replaceIn]
      exact .pure BEq.rfl
    | applied owner c args =>
      obtain ⟨owner', args', rfl, howner, hargs⟩ := Descriptor.applied_beq_iff.1 h
      have howners : Relator.reports.Runs SameFound SameSupply (owner.mapM fun d => d.replaceIn s.byPosition levels)
          (owner'.mapM fun d => d.replaceIn s.byPosition levels) := by
        cases howner with
        | none => exact .pure .none
        | some heq => exact (ih heq).bind fun _ _ heq => .pure (.some heq)
      have hlists : Relator.reports.Runs (List.Forall₂ (· == ·)) SameSupply
          (args.mapM fun d => d.replaceIn s.byPosition levels) (args'.mapM fun d => d.replaceIn s.byPosition levels) :=
        .mapM (hargs.imp fun _ _ heq => ih heq)
      rw [Descriptor.replaceIn, Descriptor.replaceIn]
      refine howners.bind fun _ _ ho => hlists.bind fun _ _ ha => .pure ?_
      exact Descriptor.applied_beq_iff.2 ⟨_, _, rfl, ho, ha⟩
    | var v =>
      rw [Descriptor.var_beq_iff.1 h, replaceIn_byPosition_var]
      exact runs_takeForVar v
    | wildcard lower upper =>
      obtain ⟨lower', upper', rfl, _⟩ := Descriptor.wildcard_beq_iff.1 h
      exact runs_takeForWildcard h

/-- By position, templates that are the same are filled with the same reports. -/
theorem sameReport_actualize_queue (h : d == e) {items items' : List Descriptor}
    (hitems : List.Forall₂ (· == ·) items items') :
    SameReport (· == ·) (s.actualize d (.queue items)) (s.actualize e (.queue items')) := by
  have hrun := runs_replaceIn (s := s) maxActualizationDepth h ⟨items, 0, .empty⟩ ⟨items', 0, .empty⟩
    ⟨hitems, rfl, Substitution.rel_empty _⟩
  rw [actualize_byPosition_eq, actualize_byPosition_eq]
  refine SameReport.bind hrun ?_
  rintro ⟨x, left, _, _⟩ ⟨y, left', _, _⟩ _ ⟨hxy, hleft, _⟩
  have hlength : left.length = left'.length := hleft.length_eq
  dsimp only at hleft
  cases hleft with
  | nil => exact hxy
  | cons _ _ => exact .inl (by rw [s.text_eq_of_beq h, hlength])

end Store

end Generics
