import Generics.Proofs.Returns
import Generics.Proofs.Slots

/-! # Room under a declared bound

A wildcard that is to fill a type parameter has to leave room under each declared bound: every upper bound is related
to the declared one, in either direction, and every lower bound is below it. Suppose that some type lies within the
wildcard and under the declared bound. Then no lower bound stands in the way (`PassesOn`), and what is left is whether
the upper bounds are related to the declared one. They need not be, since a class may have several supertypes; where
the classes above the common type form a line, they are (`shared_member_leaves_room`). -/

namespace Generics
set_option autoImplicit false

open Result

namespace Store

variable {s : Store}

/-! ## Types that stand for a placeholder -/

theorem takes_var {q : Questions Result} {t : Descriptor} {a : ClassId} (ht : t.raw? = some a) (v : TypeVar) :
    s.takes q t (.var v) = (s.boundsOf v).anyM fun bound => q.assignable t bound := by
  cases t with
  | bare c => rfl
  | applied owner c args => rfl
  | var w => cases ht
  | wildcard lower upper => cases ht

theorem takes_wildcard {q : Questions Result} {t : Descriptor} {a : ClassId} (ht : t.raw? = some a)
    (lower upper : List Descriptor) :
    s.takes q t (.wildcard lower upper) = (s.impliedUpper upper).anyM fun u => q.assignable t u := by
  cases t with
  | bare c => rfl
  | applied owner c args => rfl
  | var w => cases ht
  | wildcard lower upper => cases ht

/-! ## Below a class -/

/-- A type passes for a class on its own if it passes for one of the types that stand for it. -/
theorem allows_bare_of_anyM {b : ClassId} {d e : Descriptor} {ds : List Descriptor}
    (htakes : ∀ q : Questions Result, s.takes q (.bare b) d = ds.anyM fun u => q.assignable (.bare b) u)
    (he : e ∈ ds) (h : s.Allows (.bare b) e) : s.Allows (.bare b) d := by
  intro levels
  cases levels with
  | zero => exact decides_error _
  | succ levels =>
    rw [assignable_questions_succ, htakes]
    refine fun answer hanswer => iff_of_true ?_ trivial
    cases answer with
    | true => rfl
    | false => exact ((h levels false (anyM_eq_false_iff.1 hanswer e he)).2 trivial)

theorem allows_bare_of_below {a b : ClassId} {d : Descriptor} (hd : d.raw? = some a) (h : s.Below a b) :
    s.Allows (.bare b) d := by
  intro levels
  cases levels with
  | zero => exact decides_error _
  | succ levels =>
    rw [assignable_questions_succ]
    exact (decides_takes_bare hd).iff (iff_true_intro h)

/-- What a type takes passes for every class above it. -/
theorem allows_bare_of_assignable {levels : Nat} {c d : Descriptor} {a b : ClassId} (hc : c.raw? = some a)
    (hb : s.Below a b) (h : (s.asks levels).assignable c d = .ok true) : s.Allows (.bare b) d := by
  induction levels generalizing d with
  | zero =>
    rw [assignable_questions_zero] at h
    cases h
  | succ levels ih =>
    cases d with
    | bare e => exact allows_bare_of_below rfl ((below_of_assignable hc rfl h).trans hb)
    | applied owner e args => exact allows_bare_of_below rfl ((below_of_assignable hc rfl h).trans hb)
    | var v =>
      rw [assignable_questions_succ, takes_var hc] at h
      obtain ⟨bound, hmem, hbound⟩ := exists_of_anyM_eq_true h
      exact allows_bare_of_anyM (fun q => takes_var rfl v) hmem (ih hbound)
    | wildcard lower upper =>
      rw [assignable_questions_succ, takes_wildcard hc] at h
      obtain ⟨u, hmem, hu⟩ := exists_of_anyM_eq_true h
      exact allows_bare_of_anyM (fun q => takes_wildcard rfl lower upper) hmem (ih hu)

/-! ## Bounds -/

/-- Neither of the two types takes the other. -/
def Unrelated (s : Store) (t u : Descriptor) : Prop :=
  s.isAssignable t u = .ok false ∧ s.isAssignable u t = .ok false

/-- What `t` takes, it passes on to what that takes: `t` is a class on its own, or the store is coherent and the types
are regular, the middle one free of capture. -/
inductive PassesOn (s : Store) : Descriptor → Descriptor → Descriptor → Prop
  | bare (b : ClassId) (c l : Descriptor) : PassesOn s (.bare b) c l
  | regular {t c l : Descriptor} (hs : s.Coherent) (ht : s.Clean t) (hc : s.Clean c) (hfree : s.CaptureFree c)
      (hl : s.Clean l) : PassesOn s t c l

theorem PassesOn.isAssignable_ne_false {t c l : Descriptor} {a : ClassId} (h : s.PassesOn t c l)
    (hc : c.raw? = some a) (htc : s.isAssignable t c = .ok true) (hcl : s.isAssignable c l = .ok true) :
    s.isAssignable t l ≠ .ok false := by
  intro hno
  cases h with
  | bare b =>
    have hallows := allows_bare_of_assignable hc (below_of_assignable rfl hc htc) hcl
    cases (hallows _ false hno).2 trivial
  | regular hs ht hclean hfree hl =>
    have hcovers := Covers.trans hs ht hclean hfree hl ((hs.decides_isAssignable ht hclean true htc).1 rfl)
      ((hs.decides_isAssignable hclean hl true hcl).1 rfl)
    cases (hs.decides_isAssignable ht hl false hno).2 hcovers

theorem unrelated_of_leavesRoom {w : Wildcard} {bound : Descriptor} (h : s.leavesRoom w bound = .ok false) :
    (∃ u ∈ w.upper, s.Unrelated bound u) ∨ ∃ l ∈ w.lower, s.isAssignable bound l = .ok false := by
  rw [leavesRoom, wildcardWithin, bind_eq_ok_iff] at h
  obtain ⟨all, hall, h⟩ := h
  cases all with
  | true => exact .inr (exists_of_allM_eq_false h)
  | false =>
    obtain ⟨u, hu, hno⟩ := exists_of_allM_eq_false hall
    obtain ⟨above, habove, hbelow⟩ := bind_eq_ok_iff.1 hno
    cases above with
    | true => cases hbelow
    | false => exact .inl ⟨u, hu, habove, hbelow⟩

theorem leavesRoom_ne_true_of_unrelated {w : Wildcard} {bound u : Descriptor} (hu : u ∈ w.upper)
    (h : s.Unrelated bound u) : s.leavesRoom w bound ≠ .ok true := by
  intro hroom
  rcases related_of_leavesRoom hroom hu with hyes | hyes
  · cases h.1.symm.trans hyes
  · cases h.2.symm.trans hyes

/-- A type within a wildcard is taken by the upper bounds and takes the lower ones. -/
theorem within_of_admits {w : Wildcard} {c : Descriptor} {a : ClassId} (hc : c.raw? = some a)
    (h : s.admits w c = .ok true) :
    (∀ u ∈ w.upper, s.isAssignable u c = .ok true) ∧ ∀ l ∈ w.lower, s.isAssignable c l = .ok true := by
  have hwithin := within_of_wildcardContains h
  cases c with
  | bare c => exact hwithin
  | applied owner c args => exact hwithin
  | var v => cases hc
  | wildcard lower upper => cases hc

/-- Two classes on their own that take a common type are related if the classes above it form a line. -/
theorem not_unrelated_of_line {a b r : ClassId} {c : Descriptor} (hc : c.raw? = some r)
    (hline : ∀ x y, s.Below r x → s.Below r y → s.Below x y ∨ s.Below y x)
    (ha : s.isAssignable (.bare a) c = .ok true) (hb : s.isAssignable (.bare b) c = .ok true) :
    ¬ s.Unrelated (.bare b) (.bare a) := by
  rintro ⟨hno, hno'⟩
  rcases hline a b (below_of_assignable rfl hc ha) (below_of_assignable rfl hc hb) with hab | hba
  · cases (allows_bare_of_below rfl hab _ false hno).2 trivial
  · cases (allows_bare_of_below rfl hba _ false hno').2 trivial

end Store

/-! ## Faults of a key with arguments -/

/-- The fault is not that something is outside the bounds of the placeholder with this name. -/
def Fault.Spares (name : String) : Fault → Prop
  | .boundViolation placeholder _ _ => placeholder ≠ name
  | _ => True

theorem FailsAsCheck.spares {α : Type} {x : Result α} (h : FailsAsCheck x) (name : String) :
    Ensures (Fault.Spares name) (fun _ => True) x := by
  refine h.fault_mono fun fault hfault => ?_
  cases fault with
  | boundViolation placeholder bound candidate => cases hfault
  | _ => exact trivial

namespace Store

variable {s : Store} {name : String}

theorem failsAsCheck_checkListArity {whole : Descriptor} {ds : List Descriptor}
    (h : ∀ d ∈ ds, FailsAsCheck (s.checkArityIn whole d)) : FailsAsCheck (s.checkListArity whole ds) := by
  induction ds with
  | nil => exact trivial
  | cons d ds ih =>
    obtain ⟨hd, hds⟩ := List.forall_mem_cons.1 h
    rw [checkListArity]
    exact hd.bind fun _ => ih hds

theorem failsAsCheck_checkArityIn (whole d : Descriptor) : FailsAsCheck (s.checkArityIn whole d) := by
  induction d using Descriptor.induct with
  | bare c =>
    rw [checkArityIn]
    exact (s.failsAsCheck_require c).bind fun _ => trivial
  | applied owner c args ho ha =>
    rw [checkArityIn]
    refine (s.failsAsCheck_require c).bind fun decl => ?_
    split
    · exact rfl
    · refine FailsAsCheck.bind ?_ fun _ => failsAsCheck_checkListArity ha
      cases owner with
      | none => exact trivial
      | some o => exact ho o rfl
  | var v => exact trivial
  | wildcard lower upper hl hu =>
    rw [checkArityIn]
    exact (failsAsCheck_checkListArity hl).bind fun _ => failsAsCheck_checkListArity hu

theorem failsAsCheck_freeze (d : Descriptor) (allowVars : Bool) : FailsAsCheck (Key.freeze s d allowVars) := by
  refine (s.failsAsCheck_rawOf d).bind fun c => (failsAsCheck_checkArityIn d d).bind fun _ => ?_
  cases allowVars with
  | true => exact trivial
  | false =>
    refine FailsAsCheck.bind ?_ fun _ => trivial
    rw [Key.checkResolved]
    split
    · exact trivial
    · exact rfl

theorem failsAsCheck_of (d : Descriptor) : FailsAsCheck (Key.of s d) := failsAsCheck_freeze d false

/-- A bound is violated only by what does not fit it, and under the name of the variable. -/
theorem spares_checkBounds {v : TypeVar} {a : Descriptor} {known : Substitution}
    (h : v.name = name → ∀ declared ∈ s.boundsOf v, ∀ bound, (boundScope v a known).apply declared = .ok bound →
      s.fitsBound a bound ≠ .ok false) :
    Ensures (Fault.Spares name) (fun _ => True) (s.checkBounds v a known) := by
  refine ensures_forM fun declared hdeclared => ?_
  have happly : Ensures (Fault.Spares name) (fun bound => True ∧ (boundScope v a known).apply declared = .ok bound)
      ((boundScope v a known).apply declared) :=
    ((failsAsCheck_apply _ declared).spares name).and fun _ hbound => hbound
  refine happly.bind fun bound hbound => ?_
  split
  · exact trivial
  · have hfits : Ensures (Fault.Spares name) (fun fits => True ∧ s.fitsBound a bound = .ok fits)
        (s.fitsBound a bound) := ((failsAsCheck_fitsBound a bound).spares name).and fun _ hfits => hfits
    refine hfits.bind fun fits hfits => ?_
    cases fits with
    | true => exact trivial
    | false => exact fun hname => h hname declared hdeclared bound hbound.2 hfits.2

/-- By position, each argument is checked once, against the bounds of the parameter at its place. -/
theorem spares_mapM_replaceIn {vs : List TypeVar} {args : List Descriptor} {levels n : Nat}
    {known : Substitution} (hvs : vs.Nodup) (hfree : ∀ v ∈ vs, known.get? v = none)
    (h : ∀ (i : Nat) v a, vs[i]? = some v → args[i]? = some a → ∀ known,
      Ensures (Fault.Spares name) (fun _ => True) (s.checkBounds v a known)) :
    Ensures (Fault.Spares name) (fun _ => True)
      (((vs.map Descriptor.var).mapM (Descriptor.replaceIn s.byPosition (levels + 1))).run ⟨args, n, known⟩) := by
  induction vs generalizing args n known with
  | nil => exact trivial
  | cons w vs ih =>
    obtain ⟨hw, hvs⟩ := List.nodup_cons.1 hvs
    obtain ⟨hwfree, hfree⟩ := List.forall_mem_cons.1 hfree
    rw [List.map_cons, List.mapM_cons, StateT.run_bind, replaceIn_byPosition_var]
    cases args with
    | nil =>
      rw [takeForVar_run_nil hwfree]
      exact trivial
    | cons d args =>
      rw [takeForVar_run hwfree]
      have hfree' : ∀ v ∈ vs, (known.insert w d).get? v = none := by
        intro v hv
        have hne : v ≠ w := fun heq => hw (heq ▸ hv)
        rw [Substitution.get?_insert, if_neg hne]
        exact hfree v hv
      refine Ensures.bind (P := fun r => r = (d, ⟨args, n + 1, known.insert w d⟩)) ?_ ?_
      · exact (h 0 w d rfl rfl known).bind fun _ _ => rfl
      · rintro _ rfl
        rw [StateT.run_bind]
        have hrest := ih (n := n + 1) hvs hfree' fun i v a hv ha => h (i + 1) v a hv ha
        exact hrest.bind fun _ _ => trivial

/-- A class with arguments is refused at a parameter only if the argument there does not fit one of its bounds. -/
theorem spares_generic {c : ClassId} {decl : ClassDecl} {args : List Descriptor} (hc : s.get? c = some decl)
    (hp : decl.params ≠ []) (hnames : (decl.params.map (·.name)).Nodup)
    (h : ∀ (i : Nat) v a, (decl.ownVars c)[i]? = some v → args[i]? = some a → ∀ known,
      Ensures (Fault.Spares name) (fun _ => True) (s.checkBounds v a known)) :
    Ensures (Fault.Spares name) (fun _ => True) (Key.generic s c args) := by
  have hrun : Ensures (Fault.Spares name) (fun _ => True)
      ((((decl.ownVars c).map Descriptor.var).mapM (Descriptor.replaceIn s.byPosition 63)).run ⟨args, 0, .empty⟩) :=
    spares_mapM_replaceIn (ClassDecl.nodup_ownVars hnames c) (fun v _ => Substitution.get?_empty v) h
  rw [Key.generic_eq (template_eq hc hp), actualize_queue_eq]
  refine Ensures.bind (P := fun _ => True) (hrun.bind fun r _ => ?_) fun d _ => (failsAsCheck_of d).spares name
  split <;> exact trivial

theorem eq_of_name_eq {decl : ClassDecl} {c : ClassId} {v v' : TypeVar} (hv : v ∈ decl.ownVars c)
    (hv' : v' ∈ decl.ownVars c) (h : v'.name = v.name) : v' = v := by
  obtain ⟨param, _, rfl⟩ := List.mem_map.1 hv
  obtain ⟨param', _, rfl⟩ := List.mem_map.1 hv'
  exact congrArg (TypeVar.mk (.ofClass c)) h

/-- A wildcard that leaves room under the one bound of a parameter, which mentions no variables, is not refused. -/
theorem generic_ne_boundViolation {c : ClassId} {decl : ClassDecl} {args : List Descriptor} {i : Nat} {v : TypeVar}
    {w : Wildcard} {bound : Descriptor} (hc : s.get? c = some decl) (hnames : (decl.params.map (·.name)).Nodup)
    (hv : (decl.ownVars c)[i]? = some v) (hw : args[i]? = some w.toDescriptor) (hbounds : s.boundsOf v = [bound])
    (hclosed : bound.vars = []) (hroom : s.leavesRoom w bound ≠ .ok false) (required actual : String) :
    Key.generic s c args ≠ .error (.boundViolation v.name required actual) := by
  have hvs := ClassDecl.nodup_ownVars hnames c
  have hp : decl.params ≠ [] := by
    rintro hp
    simp [ClassDecl.ownVars, hp] at hv
  have hspares : Ensures (Fault.Spares v.name) (fun _ => True) (Key.generic s c args) := by
    refine spares_generic hc hp hnames fun j v' a hv' ha known => spares_checkBounds fun hname => ?_
    -- A variable of the class is known by its name and stands at one place, so it is the wildcard that is checked.
    obtain rfl := eq_of_name_eq (List.mem_of_getElem? hv) (List.mem_of_getElem? hv') hname
    obtain rfl := (List.getElem?_inj (List.getElem?_eq_some_iff.1 hv).1 hvs).1 (hv.trans hv'.symm)
    cases hw.symm.trans ha
    rw [hbounds]
    intro declared hdeclared b hb
    cases List.mem_singleton.1 hdeclared
    rw [(Substitution.apply_eq_ok_iff.1 hb).1, Descriptor.subst_eq_self (by simp [hclosed])]
    exact hroom
  intro hfault
  rw [hfault] at hspares
  exact hspares rfl

/-- If a type lies within a wildcard and under a declared bound, the wildcard leaves room under the bound, but for
upper bounds that are unrelated to it. -/
theorem shared_member_leaves_room (s : Store) (w : Wildcard) (bound c : Descriptor) (r : ClassId)
    (hc : c.raw? = some r) (hwithin : s.admits w c = .ok true) (hunder : s.isAssignable bound c = .ok true)
    (hlower : ∀ l ∈ w.lower, s.PassesOn bound c l) :
    (s.leavesRoom w bound = .ok false → ∃ u ∈ w.upper, s.Unrelated bound u) ∧
    ((∃ u ∈ w.upper, s.Unrelated bound u) → s.leavesRoom w bound ≠ .ok true) ∧
    ((∀ x y, s.Below r x → s.Below r y → s.Below x y ∨ s.Below y x) → (∃ b, bound = .bare b) →
      (∀ u ∈ w.upper, ∃ a, u = .bare a) → s.leavesRoom w bound ≠ .ok false) ∧
    ((∀ u ∈ w.upper, ¬ s.Unrelated bound u) → ∀ cls decl args (i : Nat) v, s.get? cls = some decl →
      (decl.params.map (·.name)).Nodup → (decl.ownVars cls)[i]? = some v → args[i]? = some w.toDescriptor →
      s.boundsOf v = [bound] → bound.vars = [] →
        ∀ required actual, Key.generic s cls args ≠ .error (.boundViolation v.name required actual)) := by
  obtain ⟨hupper, hlowers⟩ := within_of_admits hc hwithin
  have hunrelated : s.leavesRoom w bound = .ok false → ∃ u ∈ w.upper, s.Unrelated bound u := by
    intro hno
    refine (unrelated_of_leavesRoom hno).resolve_right ?_
    rintro ⟨l, hl, hlno⟩
    exact (hlower l hl).isAssignable_ne_false hc hunder (hlowers l hl) hlno
  refine ⟨hunrelated, ?_, ?_, ?_⟩
  · rintro ⟨u, hu, hno⟩
    exact leavesRoom_ne_true_of_unrelated hu hno
  · rintro hline ⟨b, rfl⟩ hbare hno
    obtain ⟨u, hu, hunrel⟩ := hunrelated hno
    obtain ⟨a, rfl⟩ := hbare u hu
    exact not_unrelated_of_line hc hline (hupper _ hu) hunder hunrel
  · intro hrelated cls decl args i v hcls hnames hv hw hbounds hclosed
    refine generic_ne_boundViolation hcls hnames hv hw hbounds hclosed fun hno => ?_
    obtain ⟨u, hu, hunrel⟩ := hunrelated hno
    exact hrelated u hu hunrel

/-- Where classes have one supertype each, the classes above one of them form a line. -/
theorem line_of_isTree (h : s.isTree) {r x y : ClassId} (hx : s.Below r x) (hy : s.Below r y) :
    s.Below x y ∨ s.Below y x := by
  refine Relation.ReflTransGen.total_of_right_unique ?_ hx hy
  rintro c p p' ⟨decl, hc, hp⟩ ⟨decl', hc', hp'⟩
  cases hc.symm.trans hc'
  obtain ⟨supertype, hsup, hraw⟩ := mem_parents.1 hp
  obtain ⟨supertype', hsup', hraw'⟩ := mem_parents.1 hp'
  rw [(treeAt_supertype h hc hsup).1, List.mem_singleton] at hsup'
  subst hsup'
  exact Option.some.inj (hraw.symm.trans hraw')

end Store

/-- `NumberBox<? extends Object super Integer>` is accepted. `? super NumberBox<Integer>` leaves room under
`Sequence<? extends Number>`, as `NumberBox<? extends Number>` lies in between. -/
theorem shapes_leave_room :
    (shapes.leavesRoom ⟨[.bare ⟨3⟩], [.bare ⟨1⟩]⟩ (.bare ⟨2⟩) ≠ .ok false ∧
      ∀ required actual, Key.generic shapes ⟨7⟩ [.wildcard [.bare ⟨3⟩] [.bare ⟨1⟩]] ≠
        .error (.boundViolation "T" required actual)) ∧
    shapes.leavesRoom ⟨[.generic ⟨7⟩ [.bare ⟨3⟩]], []⟩ (.generic ⟨5⟩ [.extending (.bare ⟨2⟩)]) ≠ .ok false := by
  constructor
  · have hline : ∀ x y, shapes.Below ⟨3⟩ x → shapes.Below ⟨3⟩ y → shapes.Below x y ∨ shapes.Below y x :=
      fun x y => Store.line_of_isTree (by decide)
    obtain ⟨_, _, hroom, hkeys⟩ := Store.shared_member_leaves_room shapes ⟨[.bare ⟨3⟩], [.bare ⟨1⟩]⟩ (.bare ⟨2⟩)
      (.bare ⟨3⟩) ⟨3⟩ rfl (by rfl) (by rfl) fun l _ => .bare ⟨2⟩ _ l
    refine ⟨hroom hline ⟨⟨2⟩, rfl⟩ (by simp), ?_⟩
    refine hkeys ?_ ⟨7⟩ _ _ 0 ⟨.ofClass ⟨7⟩, "T"⟩ rfl (by decide) rfl rfl rfl rfl
    rintro u hu ⟨_, hno⟩
    cases List.mem_singleton.1 hu
    have hyes : shapes.isAssignable (.bare ⟨1⟩) (.bare ⟨2⟩) = .ok true := by rfl
    cases hyes.symm.trans hno
  · have hbound : (shapesKey ⟨5⟩ [.extending (.bare ⟨2⟩)]).RegularIn shapes := .of_tested 5 rfl (by decide)
    have hmember : (shapesKey ⟨7⟩ [.extending (.bare ⟨2⟩)]).RegularIn shapes := .of_tested 5 rfl (by decide)
    have hlower : (shapesKey ⟨7⟩ [.bare ⟨3⟩]).RegularIn shapes := .of_tested 5 rfl (by decide)
    have hfree : shapes.CaptureFree (shapesKey ⟨7⟩ [.extending (.bare ⟨2⟩)]).descriptor :=
      Store.captureFree_of_tested 5 (by decide)
    obtain ⟨hroom, _⟩ := Store.shared_member_leaves_room shapes ⟨[.generic ⟨7⟩ [.bare ⟨3⟩]], []⟩
      (.generic ⟨5⟩ [.extending (.bare ⟨2⟩)]) (.generic ⟨7⟩ [.extending (.bare ⟨2⟩)]) ⟨7⟩ rfl (by rfl) (by rfl) (by
        intro l hl
        cases List.mem_singleton.1 hl
        exact .regular shapes_coherent hbound.clean hmember.clean hfree hlower.clean)
    intro hno
    obtain ⟨u, hu, _⟩ := hroom hno
    cases hu

/-- `Integer` is a `Number` and a `Comparable<Integer>`, and `NumberBox<N extends Number>` holds numbers. -/
def measures : Store := .built
  [.register ⟨.ordinary, "Object", [], [], none⟩,
    .register ⟨.ordinary, "Number", [], [.bare ⟨1⟩], none⟩,
    .register ⟨.interface, "Comparable", [⟨"T", []⟩], [.bare ⟨1⟩], none⟩,
    .register ⟨.ordinary, "Integer", [], [.bare ⟨2⟩, .generic ⟨3⟩ [.bare ⟨4⟩]], none⟩,
    .register ⟨.ordinary, "NumberBox", [⟨"N", [.bare ⟨2⟩]⟩], [.bare ⟨1⟩], none⟩,
    .setRoot ⟨1⟩]

/-- The type `c` lies within the wildcard and under the bound, and the wildcard leaves no room under the bound. -/
def Store.Overlooks (s : Store) (w : Wildcard) (bound c : Descriptor) : Prop :=
  c.isResolved ∧ s.admits w c = .ok true ∧ s.isAssignable bound c = .ok true ∧ s.leavesRoom w bound = .ok false

/-- A common type does not help where two supertypes or two applications of one class are unrelated, nor where answers
do not compose and a lower bound is not found below the declared one. -/
theorem common_types_overlooked :
    measures.Overlooks ⟨[], [.generic ⟨3⟩ [.bare ⟨4⟩]]⟩ (.bare ⟨2⟩) (.bare ⟨4⟩) ∧
      Key.generic measures ⟨5⟩ [.extending (.generic ⟨3⟩ [.bare ⟨4⟩])] =
        .error (.boundViolation "N" "Number" "? extends Comparable<Integer>") ∧
      shapes.Overlooks ⟨[], [.generic ⟨5⟩ [.extending (.bare ⟨2⟩)]]⟩ (.generic ⟨5⟩ [.superOf (.bare ⟨3⟩)])
        (.generic ⟨5⟩ [.bare ⟨2⟩]) ∧
      shapes.Overlooks ⟨[.generic ⟨6⟩ [.bare ⟨3⟩]], []⟩ (.generic ⟨5⟩ [.generic ⟨5⟩ [.extending (.bare ⟨2⟩)]])
        (.generic ⟨6⟩ [.extending (.bare ⟨2⟩)]) ∧
      shapes.Overlooks ⟨[.applied (some (.generic ⟨5⟩ [.bare ⟨4⟩])) ⟨8⟩ [.bare ⟨3⟩]], []⟩
        (.applied (some (.generic ⟨5⟩ [.bare ⟨2⟩])) ⟨8⟩ [.bare ⟨3⟩]) (.generic ⟨8⟩ [.bare ⟨3⟩]) ∧
      shapes.Overlooks ⟨[.generic ⟨5⟩ [.extending (.extending (.bare ⟨2⟩))]], []⟩
        (.generic ⟨5⟩ [.extending (.superOf (.bare ⟨3⟩))]) (.generic ⟨5⟩ [.extending (.bare ⟨2⟩)]) ∧
      shapes.Overlooks ⟨[.applied (some (.applied (some (.bare ⟨8⟩)) ⟨8⟩ [.bare ⟨4⟩])) ⟨8⟩ [.bare ⟨2⟩]], []⟩
        (.generic ⟨5⟩ [.bare ⟨2⟩]) (.applied (some (.bare ⟨8⟩)) ⟨8⟩ [.bare ⟨2⟩]) :=
  ⟨⟨by rfl, by rfl, by rfl, by rfl⟩, by rfl, ⟨by rfl, by rfl, by rfl, by rfl⟩, ⟨by rfl, by rfl, by rfl, by rfl⟩,
    ⟨by rfl, by rfl, by rfl, by rfl⟩, ⟨by rfl, by rfl, by rfl, by rfl⟩, ⟨by rfl, by rfl, by rfl, by rfl⟩⟩

end Generics
