import Generics.Proofs.Regular

/-! # Testing whether a store is coherent and a type regular

A store whose classes have one supertype each, declared before them, is coherent (`coherent_of_isTree`), and what
a type visits can be listed, so that regular types and those free of capture can be told by going through the
list (`regular_of_tested`, `captureFree_of_tested`). Both tests may fail where the property holds: the first does
not follow a class with several supertypes, and the second gives up at a depth. -/

namespace Generics
set_option autoImplicit false

namespace Store

open Result

variable {s : Store}

/-! ## Stores -/

/-- A class has one supertype, of a class before it, or none and is above all others. -/
def treeAt (s : Store) (c : ClassId) (decl : ClassDecl) : Bool :=
  match decl.supertypes with
  | [] => s.root == some c
  | [supertype] => (s.checkArity supertype).isOk && supertype.raw?.any (·.num < c.num) &&
      supertype.vars.all (decl.ownVars c).contains
  | _ => false

def isTree (s : Store) : Bool := s.classes.toList.all fun x => s.treeAt ⟨x.1⟩ x.2

theorem treeAt_of_get? (h : s.isTree) {c : ClassId} {decl : ClassDecl} (hc : s.get? c = some decl) :
    s.treeAt c decl :=
  forall_get? (P := fun c decl => s.treeAt c decl) (List.all_eq_true.1 h) hc

theorem treeAt_supertype (h : s.isTree) {c : ClassId} {decl : ClassDecl} {supertype : Descriptor}
    (hc : s.get? c = some decl) (hmem : supertype ∈ decl.supertypes) :
    decl.supertypes = [supertype] ∧ s.checkArity supertype = .ok () ∧
      (∃ p, supertype.raw? = some p ∧ p.num < c.num) ∧ ∀ v ∈ supertype.vars, v ∈ decl.ownVars c := by
  have ht := treeAt_of_get? h hc
  unfold treeAt at ht
  split at ht
  · rename_i heq
    simp [heq] at hmem
  · rename_i supertype' heq
    rw [heq, List.mem_singleton] at hmem
    subst hmem
    simp only [Bool.and_eq_true, Option.any_eq_true, decide_eq_true_eq, List.all_eq_true,
      List.contains_iff_mem] at ht
    obtain ⟨⟨harity, p, hp, hlt⟩, hvars⟩ := ht
    exact ⟨heq, eq_ok_of_isOk harity, ⟨p, hp, hlt⟩, hvars⟩
  · simp at ht

theorem parent_lt (h : s.isTree) {c p : ClassId} (hp : s.Parent c p) : p.num < c.num := by
  obtain ⟨decl, hc, hmem⟩ := hp
  obtain ⟨supertype, hsup, hraw⟩ := mem_parents.1 hmem
  obtain ⟨_, _, ⟨q, hq, hlt⟩, _⟩ := treeAt_supertype h hc hsup
  rw [hraw] at hq
  cases hq
  exact hlt

theorem step_unique (h : s.isTree) {d e e' : Descriptor} (he : s.Step d e) (he' : s.Step d e') : e = e' := by
  have one : ∀ {c decl x y}, s.get? c = some decl → x ∈ decl.supertypes → y ∈ decl.supertypes → x = y := by
    intro c decl x y hc hx hy
    rw [(treeAt_supertype h hc hx).1, List.mem_singleton] at hy
    exact hy.symm
  cases he with
  | opened hc hp hs ha =>
    cases he' with
    | opened hc' hp' hs' ha' =>
      rw [hc] at hc'
      cases hc'
      rw [one hc hs hs', ha'] at ha
      rw [Option.some.inj ha]
    | bound hd' hc' ho' hs' hσ' =>
      cases hd'
      rw [hc] at hc'
      cases hc'
      exact absurd (ho' rfl) hp
  | bound hd hc ho hs hρ =>
    cases he' with
    | opened hc' hp' hs' ha' =>
      cases hd
      rw [hc] at hc'
      cases hc'
      exact absurd (ho rfl) hp'
    | bound hd' hc' ho' hs' hρ' =>
      rw [hd] at hd'
      cases hd'
      rw [hc] at hc'
      cases hc'
      obtain ⟨σ, hσ, hsame⟩ := hρ.exists_bindingsOf
      obtain ⟨σ', hσ', hsame'⟩ := hρ'.exists_bindingsOf
      rw [hσ] at hσ'
      cases hσ'
      rw [one hc hs hs', hsame, hsame']

theorem below_root_of_isTree (h : s.isTree) {r : ClassId} (hr : s.root = some r) (c : ClassId)
    (hc : s.contains c) : s.Below c r := by
  induction hn : c.num.toNat using Nat.strongRecOn generalizing c with
  | ind n ih =>
    obtain ⟨decl, hdecl⟩ := Option.isSome_iff_exists.1 hc
    cases hs : decl.supertypes with
    | nil =>
      have ht := treeAt_of_get? h hdecl
      simp only [treeAt, hs, hr, beq_iff_eq, Option.some.injEq] at ht
      rw [ht]
      exact .refl
    | cons supertype rest =>
      have hmem : supertype ∈ decl.supertypes := by rw [hs]; exact List.mem_cons_self
      obtain ⟨_, harity, ⟨p, hp, hlt⟩, _⟩ := treeAt_supertype h hdecl hmem
      obtain ⟨decl', hdecl'⟩ := (checkArity_eq_ok_iff.1 harity).declared hp
      have hparent : s.Parent c p := ⟨decl, hdecl, mem_parents.2 ⟨supertype, hmem, hp⟩⟩
      have hup := ih p.num.toNat (by rw [← hn]; exact hlt) p (by simp [contains, hdecl']) rfl
      exact .head hparent hup

theorem coherent_of_isTree (h : s.isTree) {r : ClassId} (hr : s.root = some r) : s.Coherent := by
  have hnominal : s.NominalSupertypes := by
    intro c decl hc supertype hmem
    obtain ⟨_, _, ⟨p, hp, _⟩, _⟩ := treeAt_supertype h hc hmem
    rw [hp]
    rfl
  have hacyclic : ∀ c, ¬ Relation.TransGen s.Parent c c := by
    intro c hcycle
    have hlt : ∀ {a b}, Relation.TransGen s.Parent a b → b.num < a.num := by
      intro a b hab
      induction hab with
      | single hp => exact parent_lt h hp
      | tail _ hp ih => exact UInt32.lt_trans (parent_lt h hp) ih
    exact UInt32.lt_irrefl _ (hlt hcycle)
  refine ⟨⟨hnominal, fun c decl hc supertype hmem => (treeAt_supertype h hc hmem).2.1⟩,
    fun c decl hc supertype hmem => (treeAt_supertype h hc hmem).2.2.2, hacyclic,
    ⟨r, hr, below_root_of_isTree h hr⟩, ?_⟩
  intro c d _ e e' he he' hraw
  have close : ∀ {x y : Descriptor}, s.Reaches x y → x.raw? = y.raw? → x = y := by
    intro x y hxy hraw
    rcases Relation.ReflTransGen.cases_head hxy with rfl | ⟨z, hz, hzy⟩
    · rfl
    · exact absurd hraw.symm (raw?_ne_of_step hnominal hacyclic hz hzy)
  -- there is one way up, so of two types reached one is reached from the other
  have hunique : Relator.RightUnique s.Step := fun _ _ _ => step_unique h
  rcases Relation.ReflTransGen.total_of_right_unique hunique he he' with hee | hee
  · rw [close hee hraw]
    exact BEq.rfl
  · rw [close hee hraw.symm]
    exact BEq.rfl

/-! ## What is visited -/

def stepsFrom (s : Store) (d : Descriptor) (decl : ClassDecl) : List Descriptor :=
  match d, s.bindingsOf d with
  | .bare _, .ok σ =>
    if decl.params.isEmpty then decl.supertypes.map (Descriptor.subst σ) else decl.supertypes.filterMap (·.erase?)
  | _, .ok σ => decl.supertypes.map (Descriptor.subst σ)
  | _, .error _ => []

def argLeads : Descriptor → List Descriptor
  | .wildcard lower upper => lower ++ upper
  | d => [d]

def leadsFrom (s : Store) (d : Descriptor) : List Descriptor :=
  ((d.raw?.bind s.get?).map (s.stepsFrom d)).getD [] ++ d.owner?.toList ++ d.args.flatMap argLeads

theorem mem_stepsFrom {d e : Descriptor} (h : s.Step d e) :
    ∃ decl, d.raw?.bind s.get? = some decl ∧ e ∈ s.stepsFrom d decl := by
  cases h with
  | @opened c p decl supertype hc hp hs hraw =>
    refine ⟨decl, hc, ?_⟩
    have hempty : decl.params.isEmpty = false := by simpa using hp
    simp only [stepsFrom, bindingsOf, bindingsFrom, hempty]
    exact List.mem_filterMap.2 ⟨supertype, hs, erase?_eq_some_iff.2 ⟨p, hraw, rfl⟩⟩
  | @bound _ c decl supertype ρ hd hc ho hs hρ =>
    obtain ⟨σ, hσ, hsame⟩ := hρ.exists_bindingsOf
    rw [hsame]
    refine ⟨decl, by rw [hd]; exact hc, ?_⟩
    have hmem : supertype.subst σ ∈ decl.supertypes.map (Descriptor.subst σ) := List.mem_map_of_mem hs
    unfold stepsFrom
    rw [hσ]
    cases d with
    | bare c' =>
      cases hd
      simpa [ho rfl] using hmem
    | applied owner c' args => exact hmem
    | var v => exact hmem
    | wildcard lower upper => exact hmem

theorem mem_leadsFrom {d e : Descriptor} (h : s.Leads d e) : e ∈ s.leadsFrom d := by
  unfold leadsFrom
  rw [List.mem_append, List.mem_append]
  cases h with
  | step hstep =>
    obtain ⟨decl, hdecl, hmem⟩ := mem_stepsFrom hstep
    exact .inl (.inl (by rw [hdecl]; exact hmem))
  | owner _ c args => exact .inl (.inr (by simp [Descriptor.owner?]))
  | arg owner c ha hw =>
    refine .inr (List.mem_flatMap.2 ⟨e, ha, ?_⟩)
    cases e with
    | wildcard lower upper => exact absurd rfl (hw lower upper)
    | _ => exact List.mem_singleton.2 rfl
  | lower owner c ha hl => exact .inr (List.mem_flatMap.2 ⟨_, ha, List.mem_append_left _ hl⟩)
  | upper owner c ha hu => exact .inr (List.mem_flatMap.2 ⟨_, ha, List.mem_append_right _ hu⟩)

/-- A test passes everywhere down to a depth that nothing visited is below. -/
def tested (s : Store) (test : Descriptor → Bool) : Nat → Descriptor → Bool
  | 0, _ => false
  | depth + 1, d => test d && (s.leadsFrom d).all (s.tested test depth)

theorem test_of_tested {test : Descriptor → Bool} {depth : Nat} {d e : Descriptor}
    (h : s.tested test depth d) (hv : s.Visits d e) : test e := by
  induction depth generalizing d with
  | zero => simp [tested] at h
  | succ depth ih =>
    simp only [tested, Bool.and_eq_true, List.all_eq_true] at h
    rcases Relation.ReflTransGen.cases_head hv with rfl | ⟨x, hx, hxe⟩
    · exact h.1
    · exact ih (h.2 x (mem_leadsFrom hx)) hxe

end Store

/-! ## Types -/

namespace Descriptor

mutual

/-- Whether the descriptor or one of its owners is an application of `c`. -/
def binds (c : ClassId) : Descriptor → Bool
  | .applied owner c' _ => c' == c || ownerBinds c owner
  | _ => false
termination_by structural d => d

def ownerBinds (c : ClassId) : Option Descriptor → Bool
  | none => false
  | some d => d.binds c
termination_by structural owner => owner

end

theorem Binds.binds_eq {c : ClassId} {d : Descriptor} (h : d.Binds c) : d.binds c = true := by
  induction h with
  | here owner args => simp [binds]
  | owner _ c' args ih => simp [binds, ownerBinds, ih]

mutual

/-- Whether variables without the property `p` are at most arguments, of the descriptor or of an owner. -/
def plain (p : TypeVar → Bool) : Descriptor → Bool
  | .applied owner _ args => ownerPlain p owner && args.all fun a => a.var?.isSome || a.vars.all p
  | .bare _ => true
  | .var v => p v
  | .wildcard lower upper => (listVars lower ++ listVars upper).all p
termination_by structural d => d

def ownerPlain (p : TypeVar → Bool) : Option Descriptor → Bool
  | none => true
  | some d => d.plain p
termination_by structural owner => owner

end

theorem Plain.of_plain {p : TypeVar → Bool} {d : Descriptor} (h : d.plain p) : d.Plain fun v => p v = true := by
  induction d using Descriptor.induct with
  | bare c => exact .fixed fun v hv => by simp [vars] at hv
  | applied owner c args ho ha =>
    simp only [plain, Bool.and_eq_true, List.all_eq_true, Bool.or_eq_true] at h
    refine .applied (fun o heq => ?_) fun a hmem => ?_
    · subst heq
      exact ho o rfl h.1
    · rcases h.2 a hmem with hvar | hall
      · cases a <;> simp [var?] at hvar
        exact .inl ⟨_, rfl⟩
      · exact .inr hall
  | var v =>
    refine .fixed fun w hw => ?_
    rw [vars, List.mem_singleton] at hw
    rw [hw]
    exact h
  | wildcard lower upper => exact .fixed fun v hv => List.all_eq_true.1 h v hv

end Descriptor

namespace Store

variable {s : Store}

def isTidy (s : Store) : Descriptor → Bool
  | .applied owner c args => !Descriptor.ownerBinds c owner &&
      (s.get? c).all fun decl => owner.isSome == decl.enclosing.isSome && (args.zip decl.params).all fun
        | (.wildcard _ [], param) => param.bounds.all (·.hasVars)
        | _ => true
  | .wildcard _ _ => false
  | _ => true

theorem tidy_of_isTidy {d : Descriptor} (h : s.isTidy d) : s.Tidy d := by
  refine ⟨?_, ?_, ?_, ?_⟩
  · rintro lower upper rfl
    simp [isTidy] at h
  · rintro owner c args decl rfl hc
    simp only [isTidy, hc, Bool.and_eq_true, Option.all_some, beq_iff_eq] at h
    exact h.2.1
  · rintro o c args rfl hb
    simp [isTidy, Descriptor.ownerBinds, hb.binds_eq] at h
  · rintro owner c args decl rfl hc i lower param ha hp bound hbound
    simp only [isTidy, hc, Bool.and_eq_true, Option.all_some, List.all_eq_true] at h
    have hmem : (Descriptor.wildcard lower [], param) ∈ args.zip decl.params :=
      List.mem_of_getElem? (List.getElem?_zip_eq_some.2 ⟨ha, hp⟩)
    exact List.all_eq_true.1 (h.2.2 _ hmem) bound hbound

/-- Whether no wildcard argument of a type is put inside an argument of a supertype. -/
def isUncaptured (s : Store) : Descriptor → Bool
  | .applied _ c args => (s.get? c).all fun decl => decl.supertypes.all
      (Descriptor.plain fun v => (((decl.ownBindings c args).get? v).bind (·.wildcard?)).isNone)
  | _ => true

theorem uncaptured_of_isUncaptured {d : Descriptor} (h : s.isUncaptured d) : s.Uncaptured d := by
  rintro owner c args decl rfl hc supertype hmem
  simp only [isUncaptured, hc, Option.all_some, List.all_eq_true] at h
  refine (Descriptor.Plain.of_plain (h supertype hmem)).mono fun v hv lower upper hget => ?_
  simp [hget, Descriptor.wildcard?] at hv

theorem regular_of_tested {d : Descriptor} (depth : Nat) (h : s.tested s.isTidy depth d) : s.Regular d :=
  fun _ hv => tidy_of_isTidy (test_of_tested h hv)

theorem captureFree_of_tested {d : Descriptor} (depth : Nat) (h : s.tested s.isUncaptured depth d) :
    s.CaptureFree d :=
  fun _ hv => uncaptured_of_isUncaptured (test_of_tested h hv)

end Store

end Generics
