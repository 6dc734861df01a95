import Generics.Proofs.BindingModes

/-! # Views of a class put the arguments in last

What is seen from a class applied to its own parameters is seen from every application of it, with the arguments put
in. The walk up from a type and the walk up from the same type with something put in go side by side: they enter the
same classes, give an answer on both sides or on neither, and what the second finds is what the first finds, with the
same put in (`together_walkUp`).

What a type binds is read off the type and its owners. So something may be put into an argument without a change of
what is bound where, but not in the place of an owner: a type variable binds nothing there, and what is put in for it
binds the variables of its own class, in preference to what it owns. Declared supertypes have to be firm, that is,
neither they nor their owners may be type variables. -/

namespace Generics
set_option autoImplicit false

open Result

/-! ## Firm descriptors -/

/-- Neither the descriptor nor its owner nor an owner further out is a type variable. -/
inductive Descriptor.Firm : Descriptor → Prop
  | bare (c : ClassId) : Firm (.bare c)
  | unowned (c : ClassId) (args : List Descriptor) : Firm (.applied none c args)
  | owned {owner : Descriptor} (h : Firm owner) (c : ClassId) (args : List Descriptor) :
      Firm (.applied (some owner) c args)
  | wildcard (lower upper : List Descriptor) : Firm (.wildcard lower upper)

namespace Descriptor

/-- The second descriptor is the first with something put in. -/
abbrev PutIn (σ : Substitution) (d e : Descriptor) : Prop := e = d.subst σ

variable {d : Descriptor}

theorem Firm.subst (h : d.Firm) (σ : Substitution) : (d.subst σ).Firm := by
  induction h with
  | bare c => exact .bare c
  | unowned c args => exact .unowned c _
  | owned _ c args ih => exact .owned ih c _
  | wildcard lower upper => exact .wildcard _ _

theorem Firm.raw?_subst (h : d.Firm) (σ : Substitution) : (d.subst σ).raw? = d.raw? := by
  cases h <;> rfl

theorem forall₂_putIn (σ : Substitution) (ds : List Descriptor) : List.Forall₂ (PutIn σ) ds (ds.map (subst σ)) := by
  rw [List.forall₂_map_right_iff]
  exact List.forall₂_same.2 fun _ _ => rfl

end Descriptor

namespace Substitution

variable {P : Descriptor → Descriptor → Prop} {τ τ' : Substitution}

theorem Rel.exists_right (h : τ.Rel P τ') {v : TypeVar} {a : Descriptor} (ha : τ.get? v = some a) :
    ∃ b, τ'.get? v = some b ∧ P a b := by
  have hv := h v
  rw [ha] at hv
  generalize τ'.get? v = found at hv
  cases hv with
  | some hab => exact ⟨_, rfl, hab⟩

theorem Rel.exists_left (h : τ.Rel P τ') {v : TypeVar} {b : Descriptor} (hb : τ'.get? v = some b) :
    ∃ a, τ.get? v = some a ∧ P a b := by
  have hv := h v
  rw [hb] at hv
  generalize τ.get? v = found at hv
  cases hv with
  | some hab => exact ⟨_, rfl, hab⟩

theorem Rel.isEmpty_eq (h : τ.Rel P τ') : τ.isEmpty = τ'.isEmpty := by
  have hiff : τ.isEmpty = false ↔ τ'.isEmpty = false := by
    rw [isEmpty_eq_false_iff, isEmpty_eq_false_iff]
    constructor
    · rintro ⟨v, a, ha⟩
      obtain ⟨b, hb, _⟩ := h.exists_right ha
      exact ⟨v, b, hb⟩
    · rintro ⟨v, b, hb⟩
      obtain ⟨a, ha, _⟩ := h.exists_left hb
      exact ⟨v, a, ha⟩
  cases hempty : τ'.isEmpty with
  | false => exact hiff.2 hempty
  | true => simpa [hempty] using hiff

end Substitution

namespace Store

variable {s : Store}

/-! ## Bindings and views -/

/-- An application binds its own arguments first, with the same put in, and leaves the rest to its owner. -/
theorem together_bindingsFrom_applied {σ : Substitution} {owner : Option Descriptor}
    (howner : ∀ τ τ' : Substitution, τ.Rel (Descriptor.PutIn σ) τ' →
      Together (Substitution.Rel (Descriptor.PutIn σ)) (s.bindingsFromOwner τ owner)
        (s.bindingsFromOwner τ' (owner.map (Descriptor.subst σ))))
    (c : ClassId) (args : List Descriptor) {τ τ' : Substitution} (hrel : τ.Rel (Descriptor.PutIn σ) τ') :
    Together (Substitution.Rel (Descriptor.PutIn σ)) (s.bindingsFrom τ (.applied owner c args))
      (s.bindingsFrom τ' ((Descriptor.applied owner c args).subst σ)) := by
  rw [Descriptor.subst, Descriptor.substOwner_eq, Descriptor.substList_eq, bindingsFrom, bindingsFrom]
  refine Together.bind (Relator.together.refl (s.require c)) fun decl decl' _ heq => ?_
  cases heq
  rw [List.length_map]
  by_cases harity : decl.arity = args.length
  · rw [if_neg (Decidable.not_not.2 harity), if_neg (Decidable.not_not.2 harity)]
    exact howner _ _ (hrel.insertAll (Descriptor.forall₂_putIn σ args))
  · rw [if_pos harity, if_pos harity]
    exact .error _ _

theorem together_bindingsFrom {d : Descriptor} (hd : d.Firm) (σ : Substitution) {τ τ' : Substitution}
    (hrel : τ.Rel (Descriptor.PutIn σ) τ') :
    Together (Substitution.Rel (Descriptor.PutIn σ)) (s.bindingsFrom τ d) (s.bindingsFrom τ' (d.subst σ)) := by
  induction hd generalizing τ τ' with
  | bare c => exact .ok hrel
  | unowned c args =>
    refine together_bindingsFrom_applied (fun _ _ h => ?_) c args hrel
    exact .ok h
  | owned _ c args ih =>
    refine together_bindingsFrom_applied (fun _ _ h => ?_) c args hrel
    exact ih h
  | wildcard lower upper => exact .ok hrel

theorem together_viewOf {d : Descriptor} (hd : d.Firm) (σ : Substitution) (decl : ClassDecl) :
    Together (Option.Rel (Substitution.Rel (Descriptor.PutIn σ))) (s.viewOf d decl) (s.viewOf (d.subst σ) decl) := by
  have hbound : Together (Option.Rel (Substitution.Rel (Descriptor.PutIn σ))) (some <$> s.bindingsOf d)
      (some <$> s.bindingsOf (d.subst σ)) :=
    (together_bindingsFrom hd σ (Substitution.rel_empty _)).map fun _ _ h => .some h
  cases hd with
  | bare c =>
    rw [Descriptor.subst, viewOf]
    split
    · exact hbound
    · exact .ok .none
  | unowned c args => exact hbound
  | owned _ c args => exact hbound
  | wildcard lower upper => exact hbound

/-- A view binds all parameters of the class. -/
theorem binds_of_viewOf {d : Descriptor} {c : ClassId} {decl : ClassDecl} {τ : Substitution} (hraw : d.raw? = some c)
    (hc : s.get? c = some decl) (hτ : s.viewOf d decl = .ok (some τ)) {v : TypeVar} (hv : v ∈ decl.ownVars c) :
    ∃ a, τ.get? v = some a := by
  cases d with
  | bare c' =>
    rw [viewOf] at hτ
    split at hτ
    · rename_i hparams
      rw [ClassDecl.ownVars, List.isEmpty_iff.1 hparams] at hv
      cases hv
    · cases hτ
  | applied owner c' args =>
    cases hraw
    obtain ⟨τ', hτ', heq⟩ := map_eq_ok_iff.1 hτ
    cases heq
    obtain ⟨a, ha, _⟩ := closesOver_bindingsFrom (P := fun _ => True) (fun _ _ => trivial) hτ'
      (.inr ⟨c, decl, .here owner args, hc, hv⟩)
    exact ⟨a, ha⟩
  | var w => cases hraw
  | wildcard lower upper => cases hraw

/-- A supertype all of whose variables are bound is seen as the same, with what is put in on the way. -/
theorem together_seenFrom {supertype : Descriptor} (hs : supertype.Firm) (σ : Substitution)
    {view view' : Option Substitution} (hview : Option.Rel (Substitution.Rel (Descriptor.PutIn σ)) view view')
    (hbinds : ∀ τ, view = some τ → ∀ v ∈ supertype.vars, ∃ a, τ.get? v = some a) :
    Together (Option.Rel fun d e => d.Firm ∧ Descriptor.PutIn σ d e) (seenFrom view supertype)
      (seenFrom view' supertype) := by
  cases hview with
  | none =>
    refine .ok ?_
    cases herase : supertype.erase? with
    | none => exact .none
    | some above =>
      obtain ⟨p, _, rfl⟩ := erase?_eq_some_iff.1 herase
      exact .some ⟨.bare p, rfl⟩
  | @some τ τ' hrel =>
    have hsubst : (supertype.subst τ).subst σ = supertype.subst τ' := by
      refine Descriptor.subst_subst fun v hv => ?_
      obtain ⟨a, ha⟩ := hbinds τ rfl v hv
      obtain ⟨b, hb, rfl⟩ := hrel.exists_right ha
      exact ⟨a, ha, hb⟩
    rw [seenFrom, seenFrom]
    by_cases hdepth : τ.isEmpty = false → supertype.nesting ≤ maxActualizationDepth
    · rw [Substitution.apply_eq_ok_iff.2 ⟨rfl, hdepth⟩,
        Substitution.apply_eq_ok_iff.2 ⟨rfl, fun h => hdepth (hrel.isEmpty_eq.trans h)⟩]
      exact .ok (.some ⟨hs.subst τ, hsubst.symm⟩)
    · obtain ⟨hempty, hdeep⟩ := Classical.not_imp.1 hdepth
      rw [Substitution.apply_eq, Substitution.apply_eq, ← hrel.isEmpty_eq, hempty]
      simp only [Bool.false_eq_true, if_false, if_neg hdeep]
      exact .error _ _

/-! ## The walks -/

/-- No declared supertype is a type variable, or has one as its owner or as an owner further out. -/
def FirmSupertypes (s : Store) : Prop :=
  ∀ c decl, s.get? c = some decl → ∀ supertype ∈ decl.supertypes, supertype.Firm

theorem together_rawOf {d : Descriptor} (hd : d.Firm) (σ : Substitution) :
    Together (· = ·) (s.rawOf d) (s.rawOf (d.subst σ)) := by
  rw [rawOf, rawOf, hd.raw?_subst]
  cases d.raw? with
  | none => exact .error _ _
  | some c => exact .ok rfl

/-- The walks up from a type and from the same with something put in enter the same classes, and find the same, with
what was put in. -/
theorem together_walkUp (ho : s.OwnSupertypes) (hf : s.FirmSupertypes) (σ : Substitution) (target : ClassId)
    (levels : Nat) (path : List ClassId) {d : Descriptor} (hd : d.Firm) (n : Nat) :
    Together (fun x y => Option.Rel (fun d e => d.Firm ∧ Descriptor.PutIn σ d e) x.1 y.1 ∧ x.2 = y.2)
      ((s.walkUp target levels path d).run n) ((s.walkUp target levels path (d.subst σ)).run n) := by
  refine related_walkUp .together (D := fun d e => d.Firm ∧ Descriptor.PutIn σ d e) ?_ ?_ target levels path
    ⟨hd, rfl⟩ n
  · rintro d e ⟨hd, rfl⟩
    exact together_rawOf hd σ
  · rintro d e c decl ⟨hd, rfl⟩ hraw hc
    refine (together_viewOf hd σ decl).imp fun view view' hview hrel supertype hmem => ?_
    refine together_seenFrom (hf c decl hc supertype hmem) σ hrel ?_
    rintro τ rfl v hv
    exact binds_of_viewOf hraw hc hview (ho c decl hc supertype hmem v hv)

theorem together_asSupertype (ho : s.OwnSupertypes) (hf : s.FirmSupertypes) (σ : Substitution) {d : Descriptor}
    (hd : d.Firm) (target : ClassId) :
    Together (Option.Rel fun d e => d.Firm ∧ Descriptor.PutIn σ d e) (s.asSupertype d target)
      (s.asSupertype (d.subst σ) target) := by
  rw [asSupertype_eq, asSupertype_eq]
  exact (together_walkUp ho hf σ target maxHierarchyDepth [] hd 0).map fun _ _ h => h.1

/-- An application is seen through a class as its own class applied to its parameters is, with the arguments put in. -/
theorem asSupertype_natural (s : Store) (ho : s.OwnSupertypes) (hf : s.FirmSupertypes) (c : ClassId)
    (decl : ClassDecl) (hc : s.get? c = some decl) (hp : decl.params ≠ [])
    (hnames : (decl.params.map (·.name)).Nodup) (args : List Descriptor) (hl : decl.arity = args.length)
    (target : ClassId) :
    ∃ t, s.template c = .ok t ∧
      ((∃ found, s.asSupertype (.generic c args) target = .ok found) ↔
        ∃ found, s.asSupertype t target = .ok found) ∧
      ∀ found found', s.asSupertype t target = .ok found → s.asSupertype (.generic c args) target = .ok found' →
        found' = found.map (Descriptor.subst (decl.ownBindings c args)) := by
  have hlen : (decl.ownVars c).length = args.length := by
    rw [ClassDecl.ownVars, List.length_map]
    exact hl
  have hargs : (Descriptor.generic c ((decl.ownVars c).map .var)).subst (decl.ownBindings c args) =
      .generic c args := subst_generic_vars (ClassDecl.nodup_ownVars hnames c) hlen
  have hwalks := together_asSupertype ho hf (decl.ownBindings c args)
    (.unowned c ((decl.ownVars c).map .var)) target
  rw [← Descriptor.generic, hargs] at hwalks
  refine ⟨_, template_eq hc hp, hwalks.exists_iff.symm, fun found found' hfound hfound' => ?_⟩
  cases hwalks.agree found found' hfound hfound' with
  | none => rfl
  | some hput => exact congrArg some hput.2

/-- A type variable of an entry. -/
def entryVar (name : String) : Descriptor := .var ⟨.ofClass ⟨5⟩, name⟩

/-- An entry is a row of the given owner, and rows are sequences. -/
def tables (owner : Descriptor) : Store := .built
  [.register ⟨.ordinary, "Top", [], [], none⟩,
    .register ⟨.interface, "Sequence", [⟨"E", []⟩], [.bare ⟨1⟩], none⟩,
    .register ⟨.ordinary, "Table", [⟨"K", []⟩], [.bare ⟨1⟩], none⟩,
    .register ⟨.ordinary, "Row", [⟨"V", []⟩], [.generic ⟨2⟩ [.var ⟨.ofClass ⟨4⟩, "V"⟩]], some ⟨3⟩⟩,
    .register ⟨.ordinary, "Entry", [⟨"A", []⟩, ⟨"B", []⟩], [.applied (some owner) ⟨4⟩ [entryVar "A"]], none⟩,
    .setRoot ⟨1⟩]

theorem tables_firm {owner : Descriptor} (h : owner.Firm) : (tables owner).FirmSupertypes := by
  intro c decl hc supertype hmem
  have hdecl := mem_decls_of_get? hc
  have hdecls : (tables owner).decls = [⟨.ordinary, "Top", [], [], none⟩,
      ⟨.interface, "Sequence", [⟨"E", []⟩], [.bare ⟨1⟩], none⟩,
      ⟨.ordinary, "Table", [⟨"K", []⟩], [.bare ⟨1⟩], none⟩,
      ⟨.ordinary, "Row", [⟨"V", []⟩], [.generic ⟨2⟩ [.var ⟨.ofClass ⟨4⟩, "V"⟩]], some ⟨3⟩⟩,
      ⟨.ordinary, "Entry", [⟨"A", []⟩, ⟨"B", []⟩], [.applied (some owner) ⟨4⟩ [entryVar "A"]], none⟩] := rfl
  simp only [hdecls, List.mem_cons, List.not_mem_nil, or_false] at hdecl
  rcases hdecl with rfl | rfl | rfl | rfl | rfl
  · cases hmem
  · cases List.mem_singleton.1 hmem
    exact .bare _
  · cases List.mem_singleton.1 hmem
    exact .bare _
  · cases List.mem_singleton.1 hmem
    exact .unowned _ _
  · cases List.mem_singleton.1 hmem
    exact .owned h _ _

/-- An entry is a row of the table of its second argument: `Entry<Top, Sequence<Top>>` is a
`Table<Sequence<Top>>.Row<Top>`. -/
theorem tables_view :
    (tables (.generic ⟨3⟩ [entryVar "B"])).OwnSupertypes ∧ (tables (.generic ⟨3⟩ [entryVar "B"])).FirmSupertypes ∧
      (tables (.generic ⟨3⟩ [entryVar "B"])).asSupertype (.generic ⟨5⟩ [entryVar "A", entryVar "B"]) ⟨4⟩ =
        .ok (some (.applied (some (.generic ⟨3⟩ [entryVar "B"])) ⟨4⟩ [entryVar "A"])) ∧
      (tables (.generic ⟨3⟩ [entryVar "B"])).asSupertype (.generic ⟨5⟩ [.bare ⟨1⟩, .generic ⟨2⟩ [.bare ⟨1⟩]]) ⟨4⟩ =
        .ok (some (.applied (some (.generic ⟨3⟩ [.generic ⟨2⟩ [.bare ⟨1⟩]])) ⟨4⟩ [.bare ⟨1⟩])) := by
  have hown : (tables (.generic ⟨3⟩ [entryVar "B"])).OwnSupertypes := ownSupertypes_of_all (by decide)
  have hfirm : (tables (.generic ⟨3⟩ [entryVar "B"])).FirmSupertypes := tables_firm (.unowned _ _)
  have hview : (tables (.generic ⟨3⟩ [entryVar "B"])).asSupertype (.generic ⟨5⟩ [entryVar "A", entryVar "B"]) ⟨4⟩ =
      .ok (some (.applied (some (.generic ⟨3⟩ [entryVar "B"])) ⟨4⟩ [entryVar "A"])) := by rfl
  obtain ⟨t, ht, hiff, hput⟩ := asSupertype_natural _ hown hfirm ⟨5⟩ _ rfl (by decide) (by decide)
    [.bare ⟨1⟩, .generic ⟨2⟩ [.bare ⟨1⟩]] rfl ⟨4⟩
  cases ht
  obtain ⟨found, hfound⟩ := hiff.2 ⟨_, hview⟩
  refine ⟨hown, hfirm, hview, ?_⟩
  rw [hfound, hput _ _ hview hfound]
  rfl

/-- With a row put in for its second argument, an entry is a sequence of what that row says:
`Entry<Top, Row<Table<Top>>>` is a `Sequence<Table<Top>>`. With something ill-formed put in, nothing is seen. -/
theorem tables_unnatural :
    (tables (entryVar "B")).NominalSupertypes ∧ (tables (entryVar "B")).OwnSupertypes ∧
      (tables (entryVar "B")).template ⟨5⟩ = .ok (.generic ⟨5⟩ [entryVar "A", entryVar "B"]) ∧
      (tables (entryVar "B")).asSupertype (.generic ⟨5⟩ [entryVar "A", entryVar "B"]) ⟨2⟩ =
        .ok (some (.generic ⟨2⟩ [entryVar "A"])) ∧
      (∃ decl, (tables (entryVar "B")).get? ⟨5⟩ = some decl ∧ (decl.params.map (·.name)).Nodup ∧
        (Descriptor.generic ⟨2⟩ [entryVar "A"]).subst
            (decl.ownBindings ⟨5⟩ [.bare ⟨1⟩, .generic ⟨4⟩ [.generic ⟨3⟩ [.bare ⟨1⟩]]]) =
          .generic ⟨2⟩ [.bare ⟨1⟩]) ∧
      (tables (entryVar "B")).asSupertype
          (.generic ⟨5⟩ [.bare ⟨1⟩, .generic ⟨4⟩ [.generic ⟨3⟩ [.bare ⟨1⟩]]]) ⟨2⟩ =
        .ok (some (.generic ⟨2⟩ [.generic ⟨3⟩ [.bare ⟨1⟩]])) ∧
      ∃ fault, (tables (entryVar "B")).asSupertype
          (.generic ⟨5⟩ [.bare ⟨1⟩, .generic ⟨4⟩ [.bare ⟨1⟩, .bare ⟨1⟩]]) ⟨2⟩ = .error fault := by
  have hnominal : (tables (entryVar "B")).NominalSupertypes := nominal_of_all (by decide)
  have hown : (tables (entryVar "B")).OwnSupertypes := ownSupertypes_of_all (by decide)
  exact ⟨hnominal, hown, by rfl, by rfl,
    ⟨_, rfl, by decide, by rfl⟩, by rfl, _, by rfl⟩

end Store

end Generics
