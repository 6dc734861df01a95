import Generics.Proofs.Composition
import Generics.Proofs.Levels
import Generics.Proofs.Upcasts

/-! # What narrower arguments make of a type

A type in which type variables stand is a smaller or a larger one according to what is put in for them. Arguments
have to be the same unless a wildcard is required, so a variable may stand for different types only where it is an
argument as a whole or an upper bound, of which `Descriptor.Covariant` is the account. Into such a type, narrower
arguments put in place of wider ones make a type that is not refused (`allows_subst_of_covariant`). -/

namespace Generics
set_option autoImplicit false

/-- Variables that are not the `same` stand only where a narrower type makes a narrower one: as the type, an owner or a
bound if they are `loose`, and as suitable arguments. -/
inductive Descriptor.Covariant (same loose : TypeVar → Prop) (suits : TypeVar → ClassId → Nat → Prop) :
    Descriptor → Prop
  | fixed {d : Descriptor} (h : ∀ v ∈ d.vars, same v) : Covariant same loose suits d
  | var {v : TypeVar} (h : loose v) : Covariant same loose suits (.var v)
  | applied {owner : Option Descriptor} {c : ClassId} {args : List Descriptor}
      (ho : ∀ o, owner = some o → Covariant same loose suits o)
      (ha : ∀ (i : Nat) a, args[i]? = some a → (∀ v ∈ a.vars, same v) ∨ (∃ v, a = .var v ∧ suits v c i) ∨
        ∃ lower upper, a = .wildcard lower upper)
      (hw : ∀ lower upper, .wildcard lower upper ∈ args → Covariant same loose suits (.wildcard lower upper)) :
      Covariant same loose suits (.applied owner c args)
  | wildcard {lower upper : List Descriptor} (hl : ∀ l ∈ lower, ∀ v ∈ l.vars, same v)
      (hu : ∀ u ∈ upper, Covariant same loose suits u) : Covariant same loose suits (.wildcard lower upper)

namespace Store

open Result

variable {s : Store}

/-! ## Types that are not refused -/

theorem allows_iff_takes {t u : Descriptor} : s.Allows t u ↔ ∀ levels, Decides True (s.takes (s.asks levels) t u) := by
  constructor
  · intro h levels
    have hlevel := h (levels + 1)
    rw [assignable_questions_succ] at hlevel
    exact hlevel
  · intro h levels
    cases levels with
    | zero =>
      rw [assignable_questions_zero]
      exact decides_error _
    | succ levels =>
      rw [assignable_questions_succ]
      exact h levels

theorem allows_of_beq {t u : Descriptor} (h : t == u) : s.Allows t u := by
  refine allows_iff_takes.2 fun levels => ?_
  unfold takes
  rw [if_pos h]
  exact decides_ok (by simp)

theorem Within.decides {assignable : Descriptor → Descriptor → Result Bool} {lower upper : List Descriptor}
    {d : Descriptor} (h : s.Within (fun t u => Decides True (assignable t u)) lower upper d) :
    Decides True (s.wildcardContains assignable ⟨lower, upper⟩ d) := by
  have plain : (∀ u ∈ upper, Decides True (assignable u d)) → (∀ l ∈ lower, Decides True (assignable d l)) →
      Decides True (upper.allM (fun u => assignable u d) >>= fun b =>
        if b then lower.allM fun l => assignable d l else .ok false) := fun hu hl =>
    ((decides_allM hu).and fun _ => decides_allM hl).iff (by simp)
  cases d with
  | wildcard lower' upper' =>
    have hup : Decides (∀ u ∈ upper, True)
        (upper.allM fun u => (s.impliedUpper upper').anyM fun u' => assignable u u') := by
      refine decides_allM fun u hu => ?_
      obtain ⟨u', hu', hyes⟩ := h.1 u hu
      exact decides_anyM_of_mem hu' hyes
    have hlow : Decides (∀ l ∈ lower, True) (lower.allM fun l => lower'.anyM fun l' => assignable l' l) := by
      refine decides_allM fun l hl => ?_
      obtain ⟨l', hl', hyes⟩ := h.2 l hl
      exact decides_anyM_of_mem hl' hyes
    exact (hup.and fun _ => hlow).iff (by simp)
  | bare c => exact plain h.1 h.2
  | applied owner c args => exact plain h.1 h.2
  | var v => exact plain h.1 h.2

theorem Within.at_level {lower upper : List Descriptor} {d : Descriptor} (h : s.Within s.Allows lower upper d)
    (levels : Nat) : Decides True (s.wildcardContains (s.asks levels).assignable ⟨lower, upper⟩ d) :=
  (h.mono fun _ _ hallows => hallows levels).decides

theorem allows_wildcard {lower upper : List Descriptor} {d : Descriptor} (h : s.Within s.Allows lower upper d) :
    s.Allows (.wildcard lower upper) d := by
  refine allows_iff_takes.2 fun levels => ?_
  unfold takes
  split
  · exact decides_ok (by simp)
  · exact h.at_level levels

theorem Within.decides_contains {lower upper : List Descriptor} {d : Descriptor}
    (h : s.Within s.Allows lower upper d) (levels : Nat) :
    Decides True ((s.asks levels).contains ⟨lower, upper⟩ d) := by
  cases levels with
  | zero =>
    rw [contains_questions_zero]
    exact decides_error _
  | succ levels =>
    rw [contains_questions_succ]
    exact h.at_level levels

/-- An argument is the required one, or lies within the required wildcard with the bounds that the parameter at this
position of the class gives it. -/
def FitsAt (s : Store) (R : Descriptor → Descriptor → Prop) (c : ClassId) (i : Nat) (required actual : Descriptor) :
    Prop :=
  required == actual ∨ ∃ lower upper, required = .wildcard lower upper ∧
    ∀ bounded, s.withDeclaredUpper c i actual = .ok bounded → s.Within R lower upper bounded

/-- Where declared bounds come in there are no others, and then none are required. -/
theorem Within.with_declared {R : Descriptor → Descriptor → Prop} {lower upper : List Descriptor}
    {d bounded : Descriptor} {c : ClassId} {i : Nat} (h : s.Within R lower upper d)
    (hempty : ∀ lower', d = .wildcard lower' [] → upper = []) (hbounded : s.withDeclaredUpper c i d = .ok bounded) :
    s.Within R lower upper bounded := by
  unfold withDeclaredUpper at hbounded
  split at hbounded
  · rename_i lower'
    rw [hempty lower' rfl] at h ⊢
    obtain ⟨decl, _, heq⟩ := bind_eq_ok_iff.1 hbounded
    cases heq
    exact ⟨by simp, h.2⟩
  · cases hbounded
    exact h

theorem FitsAt.decides {c : ClassId} {i : Nat} {required actual : Descriptor}
    (h : s.FitsAt s.Allows c i required actual) (levels : Nat) :
    Decides True (s.argumentFits (s.asks levels) c i required actual) := by
  -- a wildcard that is the required one lies within it, whatever bounds it gets
  have hwithin : ∀ lower upper, required = .wildcard lower upper → ∀ bounded,
      s.withDeclaredUpper c i actual = .ok bounded → s.Within s.Allows lower upper bounded := by
    rintro lower upper rfl bounded hbounded
    rcases h with heq | ⟨_, _, heq, h⟩
    · refine (Within.of_beq (fun _ _ => allows_of_beq) heq).with_declared ?_ hbounded
      rintro lower' rfl
      obtain ⟨_, _, heq', _, hu⟩ := Descriptor.wildcard_beq_iff.1 heq
      cases heq'
      exact hu.eq_nil_iff.2 rfl
    · cases heq
      exact h bounded hbounded
  unfold argumentFits
  split
  · rename_i lower upper
    rw [ofExcept_eq]
    exact Decides.bind fun bounded hbounded => (hwithin lower upper rfl bounded hbounded).decides_contains levels
  · rename_i hw
    rcases h with heq | ⟨lower, upper, heq, _⟩
    · exact decides_ok (by simp [heq])
    · exact (hw lower upper heq).elim

theorem asSupertype_self {d : Descriptor} {c : ClassId} (h : d.raw? = some c) : s.asSupertype d c = .ok (some d) := by
  refine asSupertype_eq_ok_iff.2 ⟨0, ?_⟩
  rw [walkUp_run, rawOf_eq_ok_iff.2 h, ok_bind, if_pos rfl]

theorem decides_firstMisfit? {c : ClassId} {args args' : List Descriptor}
    (ha : ∀ (i : Nat) r a, args[i]? = some r → args'[i]? = some a → s.FitsAt s.Allows c i r a) (levels : Nat) :
    Decides True (s.firstMisfit? (s.asks levels) c args args' >>= fun found => .ok found.isNone) := by
  have hall : Decides (∀ x ∈ (args.zip args').zipIdx, ¬ ¬ True)
      (s.firstMisfit? (s.asks levels) c args args' >>= fun found => .ok found.isNone) := by
    refine decides_findM?_isNone fun x hmem => ?_
    obtain ⟨⟨r, a⟩, i⟩ := x
    obtain ⟨hr, ha'⟩ := List.getElem?_zip_eq_some.1 (List.mem_zipIdx_iff_getElem?.1 hmem)
    exact ((ha i r a hr ha').decides levels).not
  exact hall.iff (by simp)

/-- An application does not refuse what is an application of its class when seen through it, if the owners and the
arguments fit. -/
theorem decides_applicationTakes {owner owner' : Option Descriptor} {b c : ClassId} {args args' : List Descriptor}
    {d : Descriptor} (hd : d.raw? = some b) (hb : s.Below b c) (hview : s.viewAs d c = .ok (some (owner', args')))
    (hl : args.length = args'.length) (ho : ∀ o o', owner = some o → owner' = some o' → s.Allows o o')
    (ha : ∀ (i : Nat) r a, args[i]? = some r → args'[i]? = some a → s.FitsAt s.Allows c i r a) (levels : Nat) :
    Decides True (s.applicationTakes (s.asks levels) owner c args d) := by
  have howners : Decides True (ownersFit (s.asks levels) owner owner') := by
    cases owner with
    | none => exact decides_ok (by simp)
    | some o =>
      cases owner' with
      | none => exact decides_ok (by simp)
      | some o' => exact ho o o' rfl rfl levels
  unfold applicationTakes
  simp only [ofExcept_eq, rawOf_eq_ok_iff.2 hd, ok_bind, hview]
  refine Decides.bind fun below hbelow => ?_
  rw [(isSubclass_eq_ok hbelow).2 hb, if_pos rfl, if_neg (fun hne => hne hl)]
  exact (howners.and fun _ => decides_firstMisfit? ha levels).iff (by simp)

/-- Two applications of one class are compared owner by owner and argument by argument. -/
theorem allows_applied {owner owner' : Option Descriptor} {c : ClassId} {args args' : List Descriptor}
    (hl : args.length = args'.length) (ho : ∀ o o', owner = some o → owner' = some o' → s.Allows o o')
    (ha : ∀ (i : Nat) r a, args[i]? = some r → args'[i]? = some a → s.FitsAt s.Allows c i r a) :
    s.Allows (.applied owner c args) (.applied owner' c args') := by
  refine allows_iff_takes.2 fun levels => ?_
  unfold takes
  split
  · exact decides_ok (by simp)
  · exact decides_applicationTakes rfl .refl (viewAs_of_asSupertype (asSupertype_self rfl)) hl ho ha levels

theorem contains_of_isSubclass {c p : ClassId} {answer : Bool} (h : s.isSubclass c p = .ok answer) :
    c = p ∨ s.contains c := by
  unfold isSubclass at h
  split at h
  · rename_i heq
    exact .inl heq
  · rcases searchUp_cases h with ⟨_, hvisited⟩ | ⟨c', rest, left, decl, hdrop, _, hdecl, _⟩
    · simpa using hvisited c List.mem_cons_self
    · have hfirst : c = c' := (List.cons_eq_cons.1 (by simpa using hdrop : [c] = c' :: rest)).1
      exact .inr (by rw [contains, hfirst, hdecl]; rfl)

/-- The class above all others takes every type without variables. -/
theorem Coherent.allows_root (hs : s.Coherent) {r : ClassId} (hr : s.root = some r) {u : Descriptor}
    (hu : u.vars = []) : s.Allows (.bare r) u := by
  have hsub : ∀ c, Decides True (ofExcept (s.isSubclass c r) : Result Bool) := by
    intro c answer hanswer
    rw [ofExcept_eq] at hanswer
    obtain ⟨r', hr', hall⟩ := hs.rooted
    rw [hr] at hr'
    cases hr'
    rw [isSubclass_eq_ok hanswer, iff_true]
    rcases contains_of_isSubclass hanswer with rfl | hc
    · exact .refl
    · exact hall c hc
  induction u using Descriptor.induct with
  | bare c =>
    refine allows_iff_takes.2 fun levels => ?_
    unfold takes
    split
    · exact decides_ok (by simp)
    · exact hsub c
  | applied owner c args =>
    refine allows_iff_takes.2 fun levels => ?_
    unfold takes
    split
    · exact decides_ok (by simp)
    · exact hsub c
  | var v => simp [Descriptor.vars] at hu
  | wildcard lower upper hl hupper =>
    refine allows_iff_takes.2 fun levels => ?_
    unfold takes
    split
    · exact decides_ok (by simp)
    · cases upper with
      | nil => exact decides_anyM_of_mem (a := .bare r) (by simp [impliedUpper, hr]) (allows_of_beq BEq.rfl levels)
      | cons first upper =>
        have hmem : first ∈ first :: upper := List.mem_cons_self
        have hfirst : first.vars = [] := Descriptor.vars_eq_nil_of_subset (fun _ => Descriptor.mem_vars_upper hmem) hu
        exact decides_anyM_of_mem (mem_impliedUpper_of_mem hmem) (hupper first hmem hfirst levels)

/-! ## Narrower types put in -/

section Subst

variable {same loose : TypeVar → Prop} {suits : TypeVar → ClassId → Nat → Prop} {σ τ : Substitution}

/-- A variable is bound on either side, and what the second binds it to is not refused by what the first does, in the
places where the variable may stand. -/
def Narrows (s : Store) (same loose : TypeVar → Prop) (suits : TypeVar → ClassId → Nat → Prop)
    (σ τ : Substitution) (v : TypeVar) : Prop :=
  ∃ a a', σ.get? v = some a ∧ τ.get? v = some a' ∧ (same v → a == a') ∧
    (loose v → ∀ u, a' == u → s.Allows a u) ∧ ∀ c i, suits v c i → ∀ u, a' == u → s.FitsAt s.Allows c i a u

theorem beq_subst_of_same {d : Descriptor} (hd : ∀ v ∈ d.vars, same v)
    (hv : ∀ v ∈ d.vars, s.Narrows same loose suits σ τ v) : d.subst σ == d.subst τ := by
  refine Descriptor.beq_subst BEq.rfl fun v hmem => ?_
  obtain ⟨a, a', hσ, hτ, hsame, _⟩ := hv v hmem
  rw [hσ, hτ]
  exact .some (hsame (hd v hmem))

theorem allows_subst_of_covariant {d : Descriptor} (h : d.Covariant same loose suits)
    (hv : ∀ v ∈ d.vars, s.Narrows same loose suits σ τ v) {u : Descriptor} (hu : d.subst τ == u) :
    s.Allows (d.subst σ) u ∧
      ∀ lower upper, d = .wildcard lower upper → ∀ c i, s.FitsAt s.Allows c i (d.subst σ) u := by
  induction h generalizing u with
  | fixed hsame =>
    have heq := BEq.trans (beq_subst_of_same hsame hv) hu
    exact ⟨allows_of_beq heq, fun _ _ _ c i => .inl heq⟩
  | @var v hloose =>
    obtain ⟨a, a', hσ, hτ, _, hallows, _⟩ := hv v (by simp [Descriptor.vars])
    simp only [Descriptor.subst, hσ, hτ, Option.getD_some] at hu ⊢
    exact ⟨hallows hloose u hu, fun _ _ heq => by cases heq⟩
  | @applied owner c args _ ha _ ihowner ihwild =>
    refine ⟨?_, fun _ _ heq => by cases heq⟩
    simp only [Descriptor.subst, Descriptor.substOwner_eq, Descriptor.substList_eq] at hu ⊢
    obtain ⟨owner', args', rfl, howner, hargs⟩ := Descriptor.applied_beq_iff.1 hu
    refine allows_applied ?_ ?_ ?_
    · rw [← hargs.length_eq, List.length_map, List.length_map]
    · rintro o o' ho rfl
      obtain ⟨x, rfl, rfl⟩ := Option.map_eq_some_iff.1 ho
      cases howner with
      | some heq => exact (ihowner x rfl (fun v hmem => hv v (Descriptor.mem_vars_owner hmem)) heq).1
    · intro i r a hr ha'
      obtain ⟨x, hx, rfl⟩ := by simpa using hr
      have hmem := List.mem_of_getElem? hx
      have heq : x.subst τ == a := by
        have hτx : (args.map (Descriptor.subst τ))[i]? = some (x.subst τ) := by rw [List.getElem?_map, hx]; rfl
        obtain ⟨a', hget, heq⟩ := exists_getElem?_of_forall₂ hargs hτx
        rw [ha'] at hget
        cases hget
        exact heq
      rcases ha i x hx with hsame | ⟨v, rfl, hsuits⟩ | ⟨lower, upper, rfl⟩
      · exact .inl (BEq.trans (beq_subst_of_same hsame fun v hmemv => hv v (Descriptor.mem_vars_arg hmem hmemv)) heq)
      · obtain ⟨b, b', hσ, hτ, _, _, hfits⟩ := hv v (Descriptor.mem_vars_arg hmem (by simp [Descriptor.vars]))
        simp only [Descriptor.subst, hσ, hτ, Option.getD_some] at heq ⊢
        exact hfits c i hsuits a heq
      · exact (ihwild lower upper hmem (fun v hmemv => hv v (Descriptor.mem_vars_arg hmem hmemv)) heq).2 _ _ rfl c i
  | @wildcard lower upper hl _ ihupper =>
    simp only [Descriptor.subst, Descriptor.substList_eq] at hu ⊢
    obtain ⟨lower', upper', rfl, hlower, hupper⟩ := Descriptor.wildcard_beq_iff.1 hu
    have hwithin : s.Within s.Allows (lower.map (Descriptor.subst σ)) (upper.map (Descriptor.subst σ))
        (.wildcard lower' upper') := by
      constructor
      · intro x hx
        obtain ⟨y, hy, rfl⟩ := List.mem_map.1 hx
        obtain ⟨u', hu', heq⟩ := hupper.1 (y.subst τ) (List.mem_map_of_mem hy)
        have hvars : ∀ v ∈ y.vars, s.Narrows same loose suits σ τ v := fun v hmem =>
          hv v (Descriptor.mem_vars_upper hy hmem)
        exact ⟨u', mem_impliedUpper_of_mem hu', (ihupper y hy hvars heq).1⟩
      · intro x hx
        obtain ⟨y, hy, rfl⟩ := List.mem_map.1 hx
        obtain ⟨l', hl', heq⟩ := hlower.1 (y.subst τ) (List.mem_map_of_mem hy)
        have hvars : ∀ v ∈ y.vars, s.Narrows same loose suits σ τ v := fun v hmem =>
          hv v (Descriptor.mem_vars_lower hy hmem)
        exact ⟨l', hl', allows_of_beq (BEq.symm (BEq.trans (beq_subst_of_same (hl y hy) hvars) heq))⟩
    refine ⟨allows_wildcard hwithin, fun _ _ _ c i => .inr ⟨_, _, rfl, fun bounded => hwithin.with_declared ?_⟩⟩
    intro lower'' heq
    cases heq
    rw [List.map_eq_nil_iff.1 (hupper.eq_nil_iff.2 rfl), List.map_nil]

end Subst

end Store

end Generics
