import Generics.Proofs.Histories
import Generics.Proofs.Subclass

/-! # Well-formed types stay well-formed

`Store.WellFormed` is what `Store.checkArity` tests: every class in a type is declared and has its number of
arguments. Putting well-formed types into a well-formed one keeps that, and so does the walk up a store whose
declarations are well-formed: it never meets an undeclared class or a wrong number of arguments, and the only
fault left to it is that of going too deep. -/

namespace Generics
set_option autoImplicit false

/-- The fault of a walk that went too far. -/
def Fault.IsTooDeep : Fault → Prop
  | .depthExceeded _ _ => True
  | _ => False

/-- All that a substitution puts in has the property `P`. -/
def Substitution.All (P : Descriptor → Prop) (σ : Substitution) : Prop := ∀ v d, σ.get? v = some d → P d

theorem Substitution.all_empty (P : Descriptor → Prop) : Substitution.empty.All P := by
  intro v d h
  simp at h

theorem Substitution.All.insertAll {P : Descriptor → Prop} {σ : Substitution}
    {bindings : List (TypeVar × Descriptor)} (h : σ.All P) (hb : ∀ b ∈ bindings, P b.2) :
    (σ.insertAll bindings).All P := by
  induction bindings generalizing σ with
  | nil => exact h
  | cons b bindings ih =>
    obtain ⟨hd, hs⟩ := List.forall_mem_cons.1 hb
    refine ih (σ := σ.insert b.1 b.2) ?_ hs
    intro v d hv
    rw [get?_insert] at hv
    split at hv
    · cases hv
      exact hd
    · exact h v d hv

namespace Store

open Result

/-! ## Well-formed types -/

/-- Every class is declared and has as many arguments as parameters, or none at all. -/
inductive WellFormed (s : Store) : Descriptor → Prop
  | bare {c : ClassId} {decl : ClassDecl} (hc : s.get? c = some decl) : WellFormed s (.bare c)
  | applied {owner : Option Descriptor} {c : ClassId} {args : List Descriptor} {decl : ClassDecl}
      (hc : s.get? c = some decl) (hl : decl.arity = args.length) (ho : ∀ o, owner = some o → WellFormed s o)
      (ha : ∀ a ∈ args, WellFormed s a) : WellFormed s (.applied owner c args)
  | var (v : TypeVar) : WellFormed s (.var v)
  | wildcard {lower upper : List Descriptor} (hl : ∀ l ∈ lower, WellFormed s l)
      (hu : ∀ u ∈ upper, WellFormed s u) : WellFormed s (.wildcard lower upper)

theorem checkListArity_eq_ok_iff {s : Store} {whole : Descriptor} {ds : List Descriptor} :
    s.checkListArity whole ds = .ok () ↔ ∀ d ∈ ds, s.checkArityIn whole d = .ok () := by
  induction ds with
  | nil => exact ⟨fun _ _ h => by simp at h, fun _ => rfl⟩
  | cons d ds ih =>
    rw [checkListArity, bind_eq_ok_iff, List.forall_mem_cons, ← ih]
    exact ⟨fun ⟨_, hd, hs⟩ => ⟨hd, hs⟩, fun ⟨hd, hs⟩ => ⟨(), hd, hs⟩⟩

theorem checkOwnerArity_eq_ok_iff {s : Store} {whole : Descriptor} {owner : Option Descriptor} :
    s.checkOwnerArity whole owner = .ok () ↔ ∀ d, owner = some d → s.checkArityIn whole d = .ok () := by
  cases owner with
  | none => exact ⟨fun _ _ h => by simp at h, fun _ => rfl⟩
  | some d => exact ⟨fun h d' hd => by cases hd; exact h, fun h => h d rfl⟩

theorem checkArityIn_eq_ok_iff {s : Store} {whole d : Descriptor} :
    s.checkArityIn whole d = .ok () ↔ s.WellFormed d := by
  induction d using Descriptor.induct with
  | bare c =>
    rw [checkArityIn, bind_eq_ok_iff]
    constructor
    · rintro ⟨decl, hdecl, -⟩
      exact .bare (require_eq_ok_iff.1 hdecl)
    · intro h
      cases h with
      | bare hc => exact ⟨_, require_eq_ok_iff.2 hc, rfl⟩
  | applied owner c args ho ha =>
    rw [checkArityIn, bind_eq_ok_iff]
    constructor
    · rintro ⟨decl, hdecl, h⟩
      split at h
      · cases h
      · rename_i hl
        obtain ⟨_, howner, hargs⟩ := bind_eq_ok_iff.1 h
        exact .applied (require_eq_ok_iff.1 hdecl) (Decidable.not_not.1 hl)
          (fun o heq => (ho o heq).1 (checkOwnerArity_eq_ok_iff.1 howner o heq))
          fun a hmem => (ha a hmem).1 (checkListArity_eq_ok_iff.1 hargs a hmem)
    · intro h
      cases h with
      | @applied _ _ _ decl hc hl hwo hwa =>
        refine ⟨decl, require_eq_ok_iff.2 hc, ?_⟩
        rw [if_neg (Decidable.not_not.2 hl)]
        exact bind_eq_ok_iff.2 ⟨(), checkOwnerArity_eq_ok_iff.2 fun o heq => (ho o heq).2 (hwo o heq),
          checkListArity_eq_ok_iff.2 fun a hmem => (ha a hmem).2 (hwa a hmem)⟩
  | var v => exact ⟨fun _ => .var v, fun _ => rfl⟩
  | wildcard lower upper hl hu =>
    rw [checkArityIn, bind_eq_ok_iff]
    constructor
    · rintro ⟨_, hlower, hupper⟩
      exact .wildcard (fun l hmem => (hl l hmem).1 (checkListArity_eq_ok_iff.1 hlower l hmem))
        fun u hmem => (hu u hmem).1 (checkListArity_eq_ok_iff.1 hupper u hmem)
    · intro h
      cases h with
      | wildcard hwl hwu =>
        exact ⟨(), checkListArity_eq_ok_iff.2 fun l hmem => (hl l hmem).2 (hwl l hmem),
          checkListArity_eq_ok_iff.2 fun u hmem => (hu u hmem).2 (hwu u hmem)⟩

theorem checkArity_eq_ok_iff {s : Store} {d : Descriptor} : s.checkArity d = .ok () ↔ s.WellFormed d :=
  checkArityIn_eq_ok_iff

theorem WellFormed.declared {s : Store} {d : Descriptor} {c : ClassId} (h : s.WellFormed d)
    (hraw : d.raw? = some c) : ∃ decl, s.get? c = some decl := by
  cases h with
  | bare hc =>
    cases hraw
    exact ⟨_, hc⟩
  | applied hc =>
    cases hraw
    exact ⟨_, hc⟩
  | var v => cases hraw
  | wildcard => cases hraw

theorem WellFormed.arity_eq {s : Store} {owner : Option Descriptor} {c : ClassId} {args : List Descriptor}
    {decl : ClassDecl} (h : s.WellFormed (.applied owner c args)) (hc : s.get? c = some decl) :
    decl.arity = args.length := by
  cases h with
  | applied hc' hl =>
    rw [hc] at hc'
    cases hc'
    exact hl

theorem WellFormed.subst {s : Store} {d : Descriptor} {σ : Substitution} (h : s.WellFormed d)
    (hσ : σ.All s.WellFormed) : s.WellFormed (d.subst σ) := by
  induction h with
  | bare hc => exact .bare hc
  | @applied owner c args decl hc hl _ _ ho ha =>
    rw [Descriptor.subst, Descriptor.substOwner_eq, Descriptor.substList_eq]
    refine .applied hc (by rw [List.length_map]; exact hl) ?_ ?_
    · intro o heq
      obtain ⟨o', ho', rfl⟩ := Option.map_eq_some_iff.1 heq
      exact ho o' ho'
    · intro a hmem
      obtain ⟨a', ha', rfl⟩ := List.mem_map.1 hmem
      exact ha a' ha'
  | var v =>
    rw [Descriptor.subst]
    cases hv : σ.get? v with
    | none => exact .var v
    | some d => exact hσ v d hv
  | wildcard _ _ hl hu =>
    rw [Descriptor.subst, Descriptor.substList_eq, Descriptor.substList_eq]
    refine .wildcard ?_ ?_
    · intro l hmem
      obtain ⟨l', hl', rfl⟩ := List.mem_map.1 hmem
      exact hl l' hl'
    · intro u hmem
      obtain ⟨u', hu', rfl⟩ := List.mem_map.1 hmem
      exact hu u' hu'

theorem WellFormed.bindingsFrom {s : Store} {d : Descriptor} (h : s.WellFormed d) {σ : Substitution}
    (hσ : σ.All s.WellFormed) : ∃ σ', s.bindingsFrom σ d = .ok σ' ∧ σ'.All s.WellFormed := by
  induction h generalizing σ with
  | bare hc => exact ⟨σ, rfl, hσ⟩
  | @applied owner c args decl hc hl _ ha ho _ =>
    have hall : (σ.insertAll ((decl.params.map fun p => TypeVar.mk (.ofClass c) p.name).zip args)).All
        s.WellFormed := hσ.insertAll fun b hb => ha b.2 (List.of_mem_zip hb).2
    rw [Store.bindingsFrom, require_eq_ok_iff.2 hc, ok_bind, if_neg (Decidable.not_not.2 hl)]
    cases owner with
    | none => exact ⟨_, rfl, hall⟩
    | some o => exact ho o rfl hall
  | var v => exact ⟨σ, rfl, hσ⟩
  | wildcard => exact ⟨σ, rfl, hσ⟩

/-! ## Well-formed declarations -/

structure ProperSupertypes (s : Store) : Prop where
  nominal : s.NominalSupertypes
  arity : ∀ c decl, s.get? c = some decl → ∀ supertype ∈ decl.supertypes, s.checkArity supertype = .ok ()

/-- So are the bounds of the parameters of classes and methods, which may be placeholders. -/
structure WellDeclared (s : Store) : Prop extends ProperSupertypes s where
  bounds : ∀ scope params, s.paramsOf? scope = some params →
    ∀ param ∈ params, ∀ bound ∈ param.bounds, s.checkArity bound = .ok ()

theorem eq_ok_of_isOk {x : Result Unit} (h : x.isOk) : x = .ok () := by
  cases x with
  | error fault => cases h
  | ok a => rfl

theorem forall_paramsOf? {s : Store} {P : TypeParam → Prop}
    (hp : ∀ decl ∈ s.decls, ∀ param ∈ decl.params, P param)
    (hm : ∀ method ∈ s.methods, ∀ param ∈ method.2, P param) (scope : Scope) (params : List TypeParam)
    (hparams : s.paramsOf? scope = some params) : ∀ param ∈ params, P param := by
  cases scope with
  | ofClass c =>
    obtain ⟨decl, hc, rfl⟩ := Option.map_eq_some_iff.1 hparams
    exact hp decl (mem_decls_of_get? hc)
  | ofMethod c method =>
    obtain ⟨l₁, l₂, hl, _⟩ := List.lookup_eq_some_iff.1 hparams
    have hmem : ((c, method), params) ∈ s.methods := by rw [hl]; simp
    exact hm _ hmem

theorem wellDeclared_of_all {s : Store}
    (hs : ∀ decl ∈ s.decls, ∀ supertype ∈ decl.supertypes,
      supertype.raw?.isSome ∧ (s.checkArity supertype).isOk)
    (hp : ∀ decl ∈ s.decls, ∀ param ∈ decl.params, ∀ bound ∈ param.bounds, (s.checkArity bound).isOk)
    (hm : ∀ method ∈ s.methods, ∀ param ∈ method.2, ∀ bound ∈ param.bounds, (s.checkArity bound).isOk) :
    s.WellDeclared := by
  refine ⟨⟨fun c decl hc supertype hmem => (hs decl (mem_decls_of_get? hc) supertype hmem).1,
    fun c decl hc supertype hmem => eq_ok_of_isOk (hs decl (mem_decls_of_get? hc) supertype hmem).2⟩, ?_⟩
  exact fun scope params hparams param hparam bound hbound =>
    eq_ok_of_isOk (forall_paramsOf? hp hm scope params hparams param hparam bound hbound)

section Walk

variable {s : Store}

theorem ProperSupertypes.parent_declared (hs : s.ProperSupertypes) {c p : ClassId} (h : s.Parent c p) :
    ∃ decl, s.get? p = some decl := by
  obtain ⟨decl, hdecl, hp⟩ := h
  obtain ⟨supertype, hmem, hraw⟩ := mem_parents.1 hp
  exact (checkArity_eq_ok_iff.1 (hs.arity c decl hdecl supertype hmem)).declared hraw

theorem ProperSupertypes.ensures_searchUp (hs : s.ProperSupertypes) (target : ClassId) (visits : Nat)
    (visited : Std.TreeSet UInt32) (queue : List ClassId) (hq : ∀ c ∈ queue, ∃ decl, s.get? c = some decl) :
    Ensures Fault.IsTooDeep (fun _ => True) (s.searchUp target visits visited queue) := by
  induction visits generalizing visited queue with
  | zero =>
    rw [searchUp]
    split <;> exact trivial
  | succ visits ih =>
    rw [searchUp]
    split
    · exact trivial
    · rename_i c rest hdrop
      obtain ⟨decl, hdecl⟩ := hq c ((mem_queue_iff hdrop).2 (.inl rfl))
      refine (Ensures.of_eq_ok (P := (· = decl)) (require_eq_ok_iff.2 hdecl) rfl).bind fun decl' heq => ?_
      subst heq
      split
      · exact trivial
      · refine ih _ _ fun x hx => ?_
        rcases List.mem_append.1 hx with hx | hx
        · exact hq x ((mem_queue_iff hdrop).2 (.inr hx))
        · exact hs.parent_declared ⟨decl', hdecl, hx⟩

theorem ProperSupertypes.ensures_isSubclass (hs : s.ProperSupertypes) {sub : ClassId} {decl : ClassDecl}
    (hsub : s.get? sub = some decl) (sup : ClassId) :
    Ensures Fault.IsTooDeep (fun _ => True) (s.isSubclass sub sup) := by
  unfold isSubclass
  split
  · exact trivial
  · exact hs.ensures_searchUp sup _ _ _ fun c hc => ⟨decl, by rw [List.mem_singleton.1 hc]; exact hsub⟩

theorem ensures_apply {σ : Substitution} {d : Descriptor} (hσ : σ.All s.WellFormed) (hd : s.WellFormed d) :
    Ensures Fault.IsTooDeep s.WellFormed (σ.apply d) := by
  rw [Substitution.apply_eq]
  split
  · exact hd
  · split
    · exact hd.subst hσ
    · exact trivial

theorem WellFormed.erase? {d e : Descriptor} (hd : s.WellFormed d) (h : d.erase? = some e) : s.WellFormed e := by
  obtain ⟨c, hraw, rfl⟩ := erase?_eq_some_iff.1 h
  obtain ⟨decl, hdecl⟩ := hd.declared hraw
  exact .bare hdecl

theorem WellFormed.ensures_viewOf {d : Descriptor} (hd : s.WellFormed d) (decl : ClassDecl) :
    Ensures Fault.IsTooDeep
      (fun view => ∀ supertype, s.WellFormed supertype →
        Ensures Fault.IsTooDeep (fun seen => ∀ above, seen = some above → s.WellFormed above)
          (seenFrom view supertype))
      (s.viewOf d decl) := by
  obtain ⟨σ, hσ, hall⟩ := hd.bindingsFrom (Substitution.all_empty _)
  have hbound : Ensures Fault.IsTooDeep
      (fun view => ∀ supertype, s.WellFormed supertype →
        Ensures Fault.IsTooDeep (fun seen => ∀ above, seen = some above → s.WellFormed above)
          (seenFrom view supertype))
      (some <$> s.bindingsOf d) := by
    rw [bindingsOf, hσ]
    intro supertype hs
    refine (ensures_apply hall hs).map fun above habove above' heq => ?_
    cases heq
    exact habove
  cases d with
  | bare c =>
    rw [viewOf]
    split
    · exact hbound
    · exact fun supertype hs above habove => hs.erase? habove
  | applied owner c args => exact hbound
  | var v => exact hbound
  | wildcard lower upper => exact hbound

/-- The walk up from a well-formed type ends at a well-formed type, finds nothing or goes too deep. -/
theorem ProperSupertypes.ensures_walkUp (hs : s.ProperSupertypes) (target : ClassId) (levels : Nat)
    (path : List ClassId) (d : Descriptor) (n : Nat) (hd : s.WellFormed d) (hn : d.raw?.isSome) :
    Ensures Fault.IsTooDeep (fun found => ∀ e, found.1 = some e → s.WellFormed e)
      ((s.walkUp target levels path d).run n) := by
  induction levels generalizing path d n with
  | zero =>
    obtain ⟨c, hc⟩ := Option.isSome_iff_exists.1 hn
    rw [walkUp_run, rawOf_eq_ok_iff.2 hc, ok_bind]
    split
    · intro e he
      cases he
      exact hd
    · split <;> exact trivial
  | succ levels ih =>
    obtain ⟨c, hc⟩ := Option.isSome_iff_exists.1 hn
    obtain ⟨decl, hdecl⟩ := hd.declared hc
    rw [walkUp_run, rawOf_eq_ok_iff.2 hc, ok_bind]
    split
    · intro e he
      cases he
      exact hd
    · split
      · exact trivial
      · dsimp only
        split
        · exact fun e he => by cases he
        · rw [require_eq_ok_iff.2 hdecl, ok_bind]
          refine (hd.ensures_viewOf decl).bind fun view hview => ?_
          refine ensures_findSomeM?_run (fun _ e he => by cases he) (fun supertype hmem m => ?_) (n + 1)
          have hsup := checkArity_eq_ok_iff.1 (hs.arity c decl hdecl supertype hmem)
          obtain ⟨p, hp⟩ := Option.isSome_iff_exists.1 (hs.nominal c decl hdecl supertype hmem)
          rw [walkInto_run]
          refine ((hview supertype hsup).and fun seen h => raw?_of_seenFrom hp h).bind fun seen hseen => ?_
          obtain ⟨hwf, above, rfl, habove⟩ := hseen
          exact ih (c :: path) above m (hwf above rfl) (by rw [habove]; rfl)

theorem ProperSupertypes.ensures_asSupertype (hs : s.ProperSupertypes) {d : Descriptor} (hd : s.WellFormed d)
    (hn : d.raw?.isSome) (target : ClassId) :
    Ensures Fault.IsTooDeep (fun found => ∀ e, found = some e → s.WellFormed e) (s.asSupertype d target) := by
  rw [asSupertype_eq]
  exact (hs.ensures_walkUp target maxHierarchyDepth [] d 0 hd hn).map fun _ h => h

end Walk

end Store

end Generics
