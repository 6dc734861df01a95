import Generics.Proofs.Lifetimes
import Generics.Proofs.Mismatch

/-! # New classes change no answer

Registering a class adds it and changes nothing else (`Store.Enlarges`). So a question about types whose classes are all
declared has one and the same result before and after, be it an answer or a fault, provided that the declarations
mention declared classes only: then every type met on the way mentions declared classes only (`Store.Knows`), and the
larger store says the same of them. A class that is not declared would be another matter, since its number may be given
out at any time. -/

namespace Generics
set_option autoImplicit false

namespace Store

open Result

/-! ## Types that mention declared classes only -/

/-- Every class in a type is declared, and so is every class that one of its variables belongs to. -/
inductive Knows (s : Store) : Descriptor → Prop
  | bare {c : ClassId} (hc : s.contains c) : Knows s (.bare c)
  | applied {owner : Option Descriptor} {c : ClassId} {args : List Descriptor} (hc : s.contains c)
      (ho : ∀ o, owner = some o → Knows s o) (ha : ∀ a ∈ args, Knows s a) : Knows s (.applied owner c args)
  | var {v : TypeVar} (hv : s.contains v.scope.cls) : Knows s (.var v)
  | wildcard {lower upper : List Descriptor} (hl : ∀ l ∈ lower, Knows s l) (hu : ∀ u ∈ upper, Knows s u) :
      Knows s (.wildcard lower upper)

/-- The declared supertypes and bounds mention declared classes only. -/
structure SelfContained (s : Store) : Prop where
  supertypes : ∀ c decl, s.get? c = some decl → ∀ supertype ∈ decl.supertypes, s.Knows supertype
  bounds : ∀ scope params, s.paramsOf? scope = some params →
    ∀ param ∈ params, ∀ bound ∈ param.bounds, s.Knows bound

/-- The second store has all classes of the first, as they are there, and nothing else that is new. -/
structure Enlarges (s s' : Store) : Prop where
  classes : ∀ c decl, s.get? c = some decl → s'.get? c = some decl
  methods : s'.methods = s.methods
  root : s'.root = s.root

variable {s s' : Store}

theorem Knows.declared {d : Descriptor} {c : ClassId} (h : s.Knows d) (hraw : d.raw? = some c) : s.contains c := by
  cases h with
  | bare hc =>
    cases hraw
    exact hc
  | applied hc =>
    cases hraw
    exact hc
  | var hv => cases hraw
  | wildcard => cases hraw

theorem Knows.subst {d : Descriptor} {σ : Substitution} (h : s.Knows d) (hσ : σ.All s.Knows) :
    s.Knows (d.subst σ) := by
  induction h with
  | bare hc => exact .bare hc
  | applied hc _ _ ho ha =>
    rw [Descriptor.subst, Descriptor.substOwner_eq, Descriptor.substList_eq]
    refine .applied hc ?_ ?_
    · intro o heq
      obtain ⟨o', ho', rfl⟩ := Option.map_eq_some_iff.1 heq
      exact ho o' ho'
    · intro a hmem
      obtain ⟨a', ha', rfl⟩ := List.mem_map.1 hmem
      exact ha a' ha'
  | @var v hv =>
    rw [Descriptor.subst]
    cases hget : σ.get? v with
    | none => exact .var hv
    | some d => exact hσ v d hget
  | wildcard _ _ hl hu =>
    rw [Descriptor.subst, Descriptor.substList_eq, Descriptor.substList_eq]
    refine .wildcard ?_ ?_
    · intro l hmem
      obtain ⟨l', hl', rfl⟩ := List.mem_map.1 hmem
      exact hl l' hl'
    · intro u hmem
      obtain ⟨u', hu', rfl⟩ := List.mem_map.1 hmem
      exact hu u' hu'

theorem Knows.seenFrom {supertype : Descriptor} {view : Option Substitution} (h : s.Knows supertype)
    (hview : ∀ σ, view = some σ → σ.All s.Knows) {above : Descriptor}
    (hseen : Generics.seenFrom view supertype = .ok (some above)) : s.Knows above := by
  cases view with
  | none =>
    obtain ⟨c, hraw, rfl⟩ := erase?_eq_some_iff.1 (Except.ok.inj hseen)
    exact .bare (h.declared hraw)
  | some σ =>
    obtain ⟨above', happ, heq⟩ := map_eq_ok_iff.1 hseen
    cases heq
    rw [(Substitution.apply_eq_ok_iff.1 happ).1]
    exact h.subst (hview σ rfl)

/-- A well-formed type can mention an undeclared class as that of a variable only. -/
theorem WellFormed.knows {d : Descriptor} (h : s.WellFormed d) (hv : ∀ v ∈ d.vars, s.contains v.scope.cls) :
    s.Knows d := by
  have declared : ∀ {c decl}, s.get? c = some decl → s.contains c := fun hc => by rw [contains, hc]; rfl
  induction h with
  | bare hc => exact .bare (declared hc)
  | applied hc _ _ _ ho ha =>
    refine .applied (declared hc) (fun o heq => ho o heq fun v hmem => hv v ?_)
      fun a hmem => ha a hmem fun v hmemv => hv v (Descriptor.mem_vars_arg hmem hmemv)
    rw [heq]
    exact Descriptor.mem_vars_owner hmem
  | var v => exact .var (hv v (by simp [Descriptor.vars]))
  | wildcard _ _ hl hu =>
    exact .wildcard (fun l hmem => hl l hmem fun v hmemv => hv v (Descriptor.mem_vars_lower hmem hmemv))
      fun u hmem => hu u hmem fun v hmemv => hv v (Descriptor.mem_vars_upper hmem hmemv)

/-- A test for well-formed types that mention declared classes only. -/
def isKnown (s : Store) (d : Descriptor) : Bool := (s.checkArity d).isOk && d.vars.all (s.contains ·.scope.cls)

theorem knows_of_isKnown {d : Descriptor} (h : s.isKnown d) : s.Knows d := by
  simp only [isKnown, Bool.and_eq_true, List.all_eq_true] at h
  exact (checkArity_eq_ok_iff.1 (eq_ok_of_isOk h.1)).knows h.2

theorem selfContained_of_all (hs : ∀ decl ∈ s.decls, ∀ supertype ∈ decl.supertypes, s.isKnown supertype)
    (hp : ∀ decl ∈ s.decls, ∀ param ∈ decl.params, ∀ bound ∈ param.bounds, s.isKnown bound)
    (hm : ∀ method ∈ s.methods, ∀ param ∈ method.2, ∀ bound ∈ param.bounds, s.isKnown bound) : s.SelfContained := by
  refine ⟨fun c decl hc supertype hmem => knows_of_isKnown (hs decl (mem_decls_of_get? hc) supertype hmem), ?_⟩
  exact fun scope params hparams param hparam bound hbound =>
    knows_of_isKnown (forall_paramsOf? hp hm scope params hparams param hparam bound hbound)

/-! ## Reading -/

theorem Enlarges.get?_eq (h : s.Enlarges s') {c : ClassId} (hc : s.contains c) : s'.get? c = s.get? c := by
  obtain ⟨decl, hdecl⟩ := Option.isSome_iff_exists.1 hc
  rw [hdecl, h.classes c decl hdecl]

theorem Enlarges.className_eq (h : s.Enlarges s') {c : ClassId} (hc : s.contains c) :
    s'.className c = s.className c := by
  rw [className, className, h.get?_eq hc]

theorem Enlarges.text_eq (h : s.Enlarges s') {d : Descriptor} (hd : s.Knows d) : s'.text d = s.text d := by
  induction hd with
  | bare hc => exact h.className_eq hc
  | applied hc _ _ ho ha => exact text_applied_congr (h.className_eq hc) ho ha
  | var hv => rfl
  | wildcard _ _ hl hu => exact text_wildcard_congr hl hu

theorem Enlarges.paramsOf?_eq (h : s.Enlarges s') {scope : Scope} (hc : s.contains scope.cls) :
    s'.paramsOf? scope = s.paramsOf? scope := by
  cases scope with
  | ofClass c =>
    have hget : s'.get? c = s.get? c := h.get?_eq hc
    rw [paramsOf?, paramsOf?, hget]
  | ofMethod c method => rw [paramsOf?, paramsOf?, methodParams?, methodParams?, h.methods]

theorem Enlarges.boundsOf_eq (h : s.Enlarges s') {v : TypeVar} (hv : s.contains v.scope.cls) :
    s'.boundsOf v = s.boundsOf v := by
  rw [boundsOf, boundsOf, bounds?, bounds?, h.paramsOf?_eq hv]

theorem Enlarges.impliedUpper_eq (h : s.Enlarges s') (upper : List Descriptor) :
    s'.impliedUpper upper = s.impliedUpper upper := by
  rw [impliedUpper, impliedUpper, h.root]

theorem Enlarges.require_eq (h : s.Enlarges s') {c : ClassId} (hc : s.contains c) : s'.require c = s.require c := by
  rw [require, require, h.get?_eq hc]

theorem Enlarges.coincide_require (h : s.Enlarges s') {c : ClassId} (hc : s.contains c) :
    Coincide (fun decl => s.get? c = some decl) (s.require c) (s'.require c) :=
  ⟨(h.require_eq hc).symm, fun _ hdecl => require_eq_ok_iff.1 hdecl⟩

theorem Enlarges.coincide_rawOf (h : s.Enlarges s') {d : Descriptor} (hd : s.Knows d) :
    Coincide (fun c => s.contains c ∧ d.raw? = some c) (s.rawOf d) (s'.rawOf d) := by
  constructor
  · rw [rawOf, rawOf, h.text_eq hd]
  · intro c hc
    have hraw := rawOf_eq_ok_iff.1 hc
    exact ⟨hd.declared hraw, hraw⟩

/-! ## Searches and walks -/

theorem SelfContained.contains_parent (hs : s.SelfContained) {c p : ClassId} {decl : ClassDecl}
    (hc : s.get? c = some decl) (hp : p ∈ decl.parents) : s.contains p := by
  obtain ⟨supertype, hmem, hraw⟩ := mem_parents.1 hp
  exact (hs.supertypes c decl hc supertype hmem).declared hraw

theorem Enlarges.searchUp_eq (h : s.Enlarges s') (hs : s.SelfContained) (target : ClassId) (visits : Nat)
    (visited : Std.TreeSet UInt32) (queue : List ClassId) (hq : ∀ c ∈ queue, s.contains c) :
    s.searchUp target visits visited queue = s'.searchUp target visits visited queue := by
  induction visits generalizing visited queue with
  | zero =>
    rw [searchUp, searchUp]
  | succ visits ih =>
    rw [searchUp, searchUp]
    split
    · rfl
    · rename_i c rest hdrop
      have hc : s.contains c := hq c ((mem_queue_iff hdrop).2 (.inl rfl))
      refine (h.coincide_require hc).bind_eq fun decl hdecl => ?_
      split
      · rfl
      · refine ih _ _ fun x hx => ?_
        rcases List.mem_append.1 hx with hx | hx
        · exact hq x ((mem_queue_iff hdrop).2 (.inr hx))
        · exact hs.contains_parent hdecl hx

theorem Enlarges.isSubclass_eq (h : s.Enlarges s') (hs : s.SelfContained) {sub : ClassId} (hsub : s.contains sub)
    (sup : ClassId) : s.isSubclass sub sup = s'.isSubclass sub sup := by
  unfold isSubclass
  split
  · rfl
  · refine h.searchUp_eq hs sup _ _ _ fun c hc => ?_
    rw [List.mem_singleton.1 hc]
    exact hsub

theorem Enlarges.coincide_bindingsFrom (h : s.Enlarges s') {d : Descriptor} (hd : s.Knows d) {σ : Substitution}
    (hσ : σ.All s.Knows) :
    Coincide (fun σ' => σ'.All s.Knows) (s.bindingsFrom σ d) (s'.bindingsFrom σ d) := by
  induction hd generalizing σ with
  | bare hc => exact coincide_ok hσ
  | @applied owner c args hc ho ha iho _ =>
    rw [bindingsFrom, bindingsFrom, h.text_eq (.applied hc ho ha)]
    refine (h.coincide_require hc).bind fun decl _ => ?_
    split
    · exact coincide_error _
    · have hall : (σ.insertAll ((decl.params.map fun p => TypeVar.mk (.ofClass c) p.name).zip args)).All s.Knows :=
        hσ.insertAll fun b hb => ha b.2 (List.of_mem_zip hb).2
      cases owner with
      | none => exact coincide_ok hall
      | some o => exact iho o rfl hall
  | var hv => exact coincide_ok hσ
  | wildcard => exact coincide_ok hσ

theorem Enlarges.coincide_viewOf (h : s.Enlarges s') {d : Descriptor} (hd : s.Knows d) (decl : ClassDecl) :
    Coincide (fun view => ∀ σ, view = some σ → σ.All s.Knows) (s.viewOf d decl) (s'.viewOf d decl) := by
  have hbound : Coincide (fun view => ∀ σ, view = some σ → σ.All s.Knows) (some <$> s.bindingsOf d)
      (some <$> s'.bindingsOf d) := by
    refine (h.coincide_bindingsFrom hd (Substitution.all_empty _)).map fun σ hσ σ' heq => ?_
    cases heq
    exact hσ
  cases d with
  | bare c =>
    rw [viewOf, viewOf]
    split
    · exact hbound
    · exact coincide_ok fun σ heq => by cases heq
  | applied owner c args => exact hbound
  | var v => exact hbound
  | wildcard lower upper => exact hbound

/-- The walks in both stores come to the same end, after as many visits. -/
theorem Enlarges.coincide_walkUp (h : s.Enlarges s') (hs : s.SelfContained) (target : ClassId) (levels : Nat)
    (path : List ClassId) (d : Descriptor) (n : Nat) (hd : s.Knows d) :
    Coincide (fun found => ∀ e, found.1 = some e → s.Knows e) ((s.walkUp target levels path d).run n)
      ((s'.walkUp target levels path d).run n) := by
  induction levels generalizing path d n with
  | zero =>
    rw [walkUp_run, walkUp_run]
    refine (h.coincide_rawOf hd).bind fun c _ => ?_
    split
    · refine coincide_ok fun e he => ?_
      cases he
      exact hd
    · split <;> exact coincide_error _
  | succ levels ih =>
    rw [walkUp_run, walkUp_run]
    refine (h.coincide_rawOf hd).bind fun c hc => ?_
    split
    · refine coincide_ok fun e he => ?_
      cases he
      exact hd
    · split
      · exact coincide_error _
      · dsimp only
        split
        · exact coincide_ok fun e he => by cases he
        · refine (h.coincide_require hc.1).bind fun decl hdecl => ?_
          refine (h.coincide_viewOf hd decl).bind fun view hview => ?_
          refine coincide_findSomeM?_run (fun _ e he => by cases he) (fun supertype hmem m => ?_) (n + 1)
          -- what is seen of the supertype mentions declared classes only, so the walk can go on from it
          have hsup : s.Knows supertype := hs.supertypes c decl hdecl supertype hmem
          have hseen : Coincide (fun seen => ∀ above, seen = some above → s.Knows above)
              (Generics.seenFrom view supertype) (Generics.seenFrom view supertype) := by
            refine ⟨rfl, fun seen hseen above habove => ?_⟩
            subst habove
            exact hsup.seenFrom hview hseen
          rw [walkInto_run, walkInto_run]
          refine hseen.bind fun seen habove => ?_
          cases seen with
          | none => exact coincide_ok fun e he => by cases he
          | some above => exact ih (c :: path) above m (habove above rfl)

theorem Enlarges.coincide_asSupertype (h : s.Enlarges s') (hs : s.SelfContained) {d : Descriptor} (hd : s.Knows d)
    (target : ClassId) :
    Coincide (fun found => ∀ e, found = some e → s.Knows e) (s.asSupertype d target) (s'.asSupertype d target) := by
  rw [asSupertype_eq, asSupertype_eq]
  exact (h.coincide_walkUp hs target maxHierarchyDepth [] d 0 hd).map fun _ hfound => hfound

theorem Enlarges.coincide_viewAs (h : s.Enlarges s') (hs : s.SelfContained) {d : Descriptor} (hd : s.Knows d)
    {c : ClassId} (hc : s.contains c) :
    Coincide (fun view => ∀ owner args, view = some (owner, args) → (∀ o, owner = some o → s.Knows o) ∧
      ∀ a ∈ args, s.Knows a) (s.viewAs d c) (s'.viewAs d c) := by
  unfold viewAs
  rw [h.text_eq hd, h.className_eq hc]
  refine (h.coincide_asSupertype hs hd c).bind fun found hfound => ?_
  cases found with
  | none => exact coincide_error _
  | some e =>
    cases e with
    | applied owner c' args =>
      refine coincide_ok fun owner' args' heq => ?_
      cases heq
      cases hfound _ rfl with
      | applied _ ho ha => exact ⟨ho, ha⟩
    | bare c' => exact coincide_ok fun _ _ heq => by cases heq
    | var v => exact coincide_ok fun _ _ heq => by cases heq
    | wildcard lower upper => exact coincide_ok fun _ _ heq => by cases heq

/-! ## Rules -/

theorem Enlarges.coincide_withDeclaredUpper (h : s.Enlarges s') (hs : s.SelfContained) {c : ClassId}
    (hc : s.contains c) (index : Nat) {arg : Descriptor} (harg : s.Knows arg) :
    Coincide s.Knows (s.withDeclaredUpper c index arg) (s'.withDeclaredUpper c index arg) := by
  unfold withDeclaredUpper
  split
  · rename_i lower
    refine (h.coincide_require hc).bind fun decl hdecl => coincide_ok ?_
    cases harg with
    | wildcard hl hu =>
      refine .wildcard hl fun u hmem => ?_
      have hmem := (List.mem_filter.1 hmem).1
      cases hp : decl.params[index]? with
      | none => simp [hp] at hmem
      | some param =>
        simp only [hp, Option.map_some, Option.getD_some] at hmem
        have hparams : s.paramsOf? (.ofClass c) = some decl.params := by simp [paramsOf?, hdecl]
        exact hs.bounds _ _ hparams param (List.mem_of_getElem? hp) u hmem
  · exact coincide_ok harg

/-- Both questions have the same results for types that mention declared classes only. -/
structure SameOn (s : Store) (q q' : Questions Result) : Prop where
  assignable : ∀ t d, s.Knows t → s.Knows d → q.assignable t d = q'.assignable t d
  contains : ∀ w d, s.Knows (Wildcard.toDescriptor w) → s.Knows d → q.contains w d = q'.contains w d

section Rules

variable {q q' : Questions Result}

theorem Enlarges.wildcardContains_eq (h : s.Enlarges s') (hb : s.Built)
    {assignable assignable' : Descriptor → Descriptor → Result Bool}
    (hq : ∀ t d, s.Knows t → s.Knows d → assignable t d = assignable' t d) {w : Wildcard} {d : Descriptor}
    (hw : s.Knows w.toDescriptor) (hd : s.Knows d) :
    s.wildcardContains assignable w d = s'.wildcardContains assignable' w d := by
  cases hw with
  | wildcard hwl hwu =>
    have plain : (w.upper.allM (fun u => assignable u d) >>= fun b =>
          if b then w.lower.allM fun l => assignable d l else .ok false) =
        (w.upper.allM (fun u => assignable' u d) >>= fun b =>
          if b then w.lower.allM fun l => assignable' d l else .ok false) := by
      rw [allM_congr fun u hu => hq u d (hwu u hu) hd, allM_congr fun l hl => hq d l hd (hwl l hl)]
    cases hd with
    | @wildcard lower upper hl hu =>
      have hupper : ∀ u ∈ s.impliedUpper upper, s.Knows u := hb.forall_impliedUpper (fun _ hc => .bare hc) hu
      simp only [wildcardContains, h.impliedUpper_eq]
      rw [allM_congr fun u hmem => anyM_congr fun u' hmem' => hq u u' (hwu u hmem) (hupper u' hmem'),
        allM_congr fun l hmem => anyM_congr fun l' hmem' => hq l' l (hl l' hmem') (hwl l hmem)]
    | bare hc => exact plain
    | applied hc ho ha => exact plain
    | var hv => exact plain

theorem Enlarges.argumentFits_eq (h : s.Enlarges s') (hs : s.SelfContained) (hq : s.SameOn q q') {c : ClassId}
    (hc : s.contains c) (index : Nat) {required actual : Descriptor} (hr : s.Knows required) (ha : s.Knows actual) :
    s.argumentFits q c index required actual = s'.argumentFits q' c index required actual := by
  unfold argumentFits
  split
  · simp only [ofExcept_eq]
    exact (h.coincide_withDeclaredUpper hs hc index ha).bind_eq fun actual' ha' => hq.contains _ _ hr ha'
  · rfl

theorem Enlarges.firstMisfit?_eq (h : s.Enlarges s') (hs : s.SelfContained) (hq : s.SameOn q q') {c : ClassId}
    (hc : s.contains c) {required actual : List Descriptor} (hr : ∀ d ∈ required, s.Knows d)
    (ha : ∀ d ∈ actual, s.Knows d) : s.firstMisfit? q c required actual = s'.firstMisfit? q' c required actual := by
  refine findM?_congr fun x hmem => ?_
  obtain ⟨⟨r, a⟩, index⟩ := x
  obtain ⟨hmr, hma⟩ := List.of_mem_zip (List.fst_mem_of_mem_zipIdx hmem)
  simp only [h.argumentFits_eq hs hq hc index (hr r hmr) (ha a hma)]

theorem SameOn.ownersFit_eq (hq : s.SameOn q q') {owner owner' : Option Descriptor}
    (ho : ∀ o, owner = some o → s.Knows o) (ho' : ∀ o, owner' = some o → s.Knows o) :
    ownersFit q owner owner' = ownersFit q' owner owner' := by
  cases owner with
  | none => rfl
  | some o =>
    cases owner' with
    | none => rfl
    | some o' => exact hq.assignable o o' (ho o rfl) (ho' o' rfl)

theorem Enlarges.applicationTakes_eq (h : s.Enlarges s') (hs : s.SelfContained) (hq : s.SameOn q q')
    {owner : Option Descriptor} {c : ClassId} {args : List Descriptor} {source : Descriptor}
    (ht : s.Knows (.applied owner c args)) (hd : s.Knows source) :
    s.applicationTakes q owner c args source = s'.applicationTakes q' owner c args source := by
  unfold applicationTakes
  simp only [ofExcept_eq, h.text_eq ht]
  cases ht with
  | applied hc ho ha =>
    refine (h.coincide_rawOf hd).bind_eq fun below hbelow => ?_
    rw [h.isSubclass_eq hs hbelow.1]
    refine bind_congr fun sub => ?_
    cases sub with
    | false => simp only [Bool.false_eq_true, if_false]
    | true =>
      refine (h.coincide_viewAs hs hd hc).bind_eq fun view hview => ?_
      cases view with
      | none => rfl
      | some view =>
        obtain ⟨owner', args'⟩ := view
        obtain ⟨ho', ha'⟩ := hview owner' args' rfl
        simp only [hq.ownersFit_eq ho ho', h.firstMisfit?_eq hs hq hc ha ha']

theorem Enlarges.takes_eq (h : s.Enlarges s') (hs : s.SelfContained) (hb : s.Built) (hq : s.SameOn q q')
    {target source : Descriptor} (ht : s.Knows target) (hd : s.Knows source) :
    s.takes q target source = s'.takes q' target source := by
  unfold takes
  split
  · rfl
  split
  · exact h.wildcardContains_eq hb hq.assignable ht hd
  · rename_i v _ _
    cases hd with
    | var hv =>
      rw [h.boundsOf_eq hv]
      exact anyM_congr fun bound hmem => hq.assignable target bound ht (forall_boundsOf hs.bounds v bound hmem)
  · rfl
  · cases hd with
    | wildcard hl hu =>
      rw [h.impliedUpper_eq]
      exact anyM_congr fun u hmem =>
        hq.assignable target u ht (hb.forall_impliedUpper (fun _ hc => .bare hc) hu u hmem)
  · simp only [ofExcept_eq]
    exact (h.coincide_rawOf hd).bind_eq fun below hbelow => h.isSubclass_eq hs hbelow.1 _
  · exact h.applicationTakes_eq hs hq ht hd

end Rules

theorem Enlarges.sameOn_questions (h : s.Enlarges s') (hs : s.SelfContained) (hb : s.Built) (p : Profile)
    (levels : Nat) : s.SameOn (s.questions p id levels) (s'.questions p id levels) := by
  induction levels with
  | zero =>
    constructor
    · intro t d _ _
      rw [assignable_questions_zero, assignable_questions_zero]
    · intro w d _ _
      rw [contains_questions_zero, contains_questions_zero]
  | succ levels ih =>
    constructor
    · intro t d ht hd
      rw [assignable_questions_succ, assignable_questions_succ]
      exact h.takes_eq hs hb ih ht hd
    · intro w d hw hd
      rw [contains_questions_succ, contains_questions_succ]
      exact h.wildcardContains_eq hb ih.assignable hw hd

/-! ## What registering does -/

theorem Enlarges.refl (s : Store) : s.Enlarges s := ⟨fun _ _ h => h, rfl, rfl⟩

theorem Enlarges.trans {s'' : Store} (h : s.Enlarges s') (h' : s'.Enlarges s'') : s.Enlarges s'' :=
  ⟨fun c decl hc => h'.classes c decl (h.classes c decl hc), h'.methods.trans h.methods, h'.root.trans h.root⟩

theorem enlarges_register (hnew : ¬ s.contains s.nextId) (decl : ClassDecl) : s.Enlarges (s.register decl).2 :=
  ⟨fun _ _ hc => get?_register_of_get? hnew hc, rfl, rfl⟩

end Store

/-- The operation registers a class, as it is given or by declaring it, and does nothing else. -/
def Operation.Registers : Operation → Prop
  | .change (.register _) => True
  | .declare _ _ _ => True
  | _ => False

namespace Workspace

variable {shardOf : String → Fin 16}

theorem built_after {w : Workspace shardOf} (h : w.store.Built) (ops : List Operation) : (w.after ops).store.Built := by
  induction ops generalizing w with
  | nil => exact h
  | cons op ops ih =>
    refine ih (w := w.step op) ?_
    cases op with
    | change ch => exact h.change ch
    | declare kind name params => exact h.change (.register _)
    | intern text => exact h

theorem enlarges_step {w : Workspace shardOf} (hnew : ¬ w.store.contains w.store.nextId) {op : Operation}
    (hop : op.Registers) : w.store.Enlarges (w.step op).store := by
  cases op with
  | change ch =>
    cases ch with
    | register decl => exact Store.enlarges_register hnew decl
    | _ => exact hop.elim
  | declare kind name params => exact Store.enlarges_register hnew _
  | intern text => exact hop.elim

theorem enlarges_after {w : Workspace shardOf} (h : w.store.Numbered) (ops : List Operation)
    (hops : ∀ op ∈ ops, op.Registers) (hsize : (w.after ops).store.size < 4294967296) :
    w.store.Enlarges (w.after ops).store := by
  induction ops generalizing w with
  | nil => exact .refl _
  | cons op ops ih =>
    obtain ⟨hop, hops⟩ := List.forall_mem_cons.1 hops
    have hroom := Nat.lt_of_le_of_lt ((w.step op).size_le_after ops) hsize
    have hnew := h.not_contains_nextId (Nat.lt_of_le_of_lt (w.size_le_step op) hroom)
    exact (enlarges_step hnew hop).trans (ih (numbered_step h op hroom) hops hsize)

end Workspace

/-- Registering classes changes no result: where only declared classes are mentioned, a check, a walk up or a search
has the same answer or the same fault before and after. -/
theorem registrations_change_no_result {shardOf : String → Fin 16} (w w' : Workspace shardOf)
    (before later : List Operation) (hw : w = Workspace.new.after before) (hs : w.store.SelfContained)
    (hlater : ∀ op ∈ later, op.Registers) (hw' : w' = w.after later) (hsize : w'.store.size < 4294967295) :
    (∀ target source, w.store.Knows target → w.store.Knows source →
      w'.store.isAssignable target source = w.store.isAssignable target source) ∧
    (∀ source, w.store.Knows source → ∀ ancestor,
      w'.store.asSupertype source ancestor = w.store.asSupertype source ancestor) ∧
    ∀ sub, w.store.contains sub → ∀ sup, w'.store.isSubclass sub sup = w.store.isSubclass sub sup := by
  have hbuilt : w.store.Built := by
    rw [hw]
    exact Workspace.built_after .empty before
  have hlarger : w.store.Enlarges w'.store := by
    rw [hw'] at hsize ⊢
    have hroom := Nat.lt_of_le_of_lt (w.size_le_after later) (Nat.lt_succ_of_lt hsize)
    have hnumbered : w.store.Numbered := by
      rw [hw] at hroom ⊢
      exact Workspace.numbered_after Store.numbered_empty before hroom
    exact Workspace.enlarges_after hnumbered later hlater (Nat.lt_succ_of_lt hsize)
  refine ⟨fun target source ht hd => ?_, fun source hd ancestor => ?_, fun sub hsub sup => ?_⟩
  · exact ((hlarger.sameOn_questions hs hbuilt .assignability _).assignable target source ht hd).symm
  · exact (hlarger.coincide_asSupertype hs hd ancestor).1.symm
  · exact (hlarger.isSubclass_eq hs hsub sup).symm

/-- Bags are sequences and take sequences only; a method of sequences makes a bag of them. -/
def bags : List Operation :=
  [.declare .ordinary "Object" [], .declare .interface "Sequence" ["T"], .declare .ordinary "Bag" ["T"],
    .change (.setSupertypes ⟨2⟩ [.bare ⟨1⟩]),
    .change (.setSupertypes ⟨3⟩ [.generic ⟨2⟩ [.var ⟨.ofClass ⟨3⟩, "T"⟩]]),
    .change (.setBounds ⟨3⟩ "T" [.generic ⟨2⟩ [.unbounded]]),
    .change (.setMethodParams ⟨2⟩ "collect" [⟨"R", [.generic ⟨3⟩ [.var ⟨.ofClass ⟨2⟩, "T"⟩]]⟩]),
    .change (.setRoot ⟨1⟩)]

/-- All names are taken by new classes, one of which mentions a class that is not there. -/
def usurpers : List Operation :=
  [.declare .ordinary "Object" ["T"], .change (.register ⟨.interface, "Sequence", [], [.bare ⟨9⟩], none⟩),
    .declare .interface "Bag" []]

/-- Neither the answers nor the fault change, whose text has the old names. -/
theorem usurpers_change_nothing :
    let w := (Workspace.new : Workspace shardBySum).after bags
    let w' := w.after usurpers
    w'.store.lookup "Bag" = some ⟨6⟩ ∧
      w'.store.isAssignable (.generic ⟨3⟩ [.extending (.generic ⟨2⟩ [.unbounded])]) (.generic ⟨3⟩ [.unbounded]) =
        .ok true ∧
      w'.store.isAssignable (.generic ⟨2⟩ [.bare ⟨1⟩]) (.var ⟨.ofMethod ⟨2⟩ "collect", "R"⟩) = .ok false ∧
      w'.store.isAssignable (.generic ⟨2⟩ [.bare ⟨1⟩, .unbounded]) (.generic ⟨3⟩ [.bare ⟨1⟩]) =
        .error (.invalidDescriptor "Sequence<Object, ?>" (.viewCount 2 1)) ∧
      w'.store.asSupertype (.generic ⟨3⟩ [.bare ⟨1⟩]) ⟨2⟩ = .ok (some (.generic ⟨2⟩ [.bare ⟨1⟩])) ∧
      w'.store.isSubclass ⟨3⟩ ⟨1⟩ = .ok true := by
  intro w w'
  have hs : w.store.SelfContained := by
    apply Store.selfContained_of_all <;> decide
  have hlater : ∀ op ∈ usurpers, op.Registers := by
    simp [usurpers, Operation.Registers]
  obtain ⟨hassign, hview, hsub⟩ := registrations_change_no_result w w' bags usurpers rfl hs hlater rfl (by decide)
  have known : ∀ {d}, w.store.isKnown d → w.store.Knows d := fun h => Store.knows_of_isKnown h
  refine ⟨rfl, ?_, ?_, ?_, ?_, ?_⟩
  · rw [hassign _ _ (known rfl) (known rfl)]
    rfl
  · rw [hassign _ _ (known rfl) (known rfl)]
    rfl
  · have htarget : w.store.Knows (.generic ⟨2⟩ [.bare ⟨1⟩, .unbounded]) := by
      refine .applied rfl (fun o heq => by cases heq) ?_
      simp only [List.forall_mem_cons]
      exact ⟨.bare rfl, .wildcard (by simp) (by simp), by simp⟩
    rw [hassign _ _ htarget (known rfl)]
    rfl
  · rw [hview _ (known rfl)]
    rfl
  · rw [hsub _ rfl]
    rfl

end Generics
