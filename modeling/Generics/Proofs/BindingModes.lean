import Generics.Proofs.Keys
import Generics.Proofs.Regular
import Generics.Proofs.Replacement

/-! # Filling parameters by name and by position

A class is applied to arguments by name, all of them being known from the start, or by position, where only those
further to the left are known. What is accepted by name is accepted by position. The other way round the two part
where a bound mentions a parameter that is filled later: by position it is left for later, and not looked at again.
So an accepted key keeps to those bounds of its class that look no further ahead. -/

namespace Generics
set_option autoImplicit false

open Result

def Descriptor.IsWildcard (d : Descriptor) : Prop := ∃ lower upper, d = .wildcard lower upper

namespace Substitution

/-! ## What is known so far -/

/-- The first substitution binds what the second binds, or less. -/
def Le (τ σ : Substitution) : Prop := ∀ v d, τ.get? v = some d → σ.get? v = some d

/-- The first so many variables with their arguments. -/
def upTo (vs : List TypeVar) (args : List Descriptor) (i : Nat) : Substitution :=
  empty.insertAll ((vs.zip args).take i)

theorem isEmpty_eq_false_iff {σ : Substitution} : σ.isEmpty = false ↔ ∃ v d, σ.get? v = some d := by
  obtain ⟨entries⟩ := σ
  cases entries with
  | nil => simp [isEmpty, get?]
  | cons entry entries =>
    obtain ⟨v, d⟩ := entry
    exact ⟨fun _ => ⟨v, d, by simp [get?]⟩, fun _ => rfl⟩

theorem insertAll_append (σ : Substitution) (xs ys : List (TypeVar × Descriptor)) :
    σ.insertAll (xs ++ ys) = (σ.insertAll xs).insertAll ys := List.foldl_append

variable {vs : List TypeVar} {args : List Descriptor} {i : Nat}

theorem get?_upTo_of_not_mem_drop {w : TypeVar} (h : w ∉ vs.drop i) :
    (upTo vs args i).get? w = (empty.insertAll (vs.zip args)).get? w := by
  have hdrop : (vs.zip args).drop i = (vs.drop i).zip (args.drop i) := List.drop_zipWith
  have hsplit : empty.insertAll (vs.zip args) = (upTo vs args i).insertAll ((vs.drop i).zip (args.drop i)) := by
    rw [upTo, ← hdrop, ← insertAll_append, List.take_append_drop]
  rw [hsplit, get?_insertAll_of_not_mem h]

theorem upTo_eq : upTo vs args i = empty.insertAll ((vs.take i).zip (args.take i)) :=
  congrArg empty.insertAll List.take_zipWith

theorem get?_upTo_eq_none {w : TypeVar} (h : w ∉ vs.take i) : (upTo vs args i).get? w = none := by
  rw [upTo_eq, get?_insertAll_of_not_mem h, get?_empty]

theorem upTo_le (hvs : vs.Nodup) (i : Nat) : (upTo vs args i).Le (empty.insertAll (vs.zip args)) := by
  intro w d hw
  have htake : w ∈ vs.take i := by
    by_contra hmem
    rw [get?_upTo_eq_none hmem] at hw
    cases hw
  have hdrop : w ∉ vs.drop i := fun hmem => (List.disjoint_take_drop hvs (Nat.le_refl i)) htake hmem
  rw [← get?_upTo_of_not_mem_drop hdrop]
  exact hw

theorem isEmpty_upTo {v : TypeVar} {a : Descriptor} (hv : vs[i]? = some v) (ha : args[i]? = some a) (hi : i ≠ 0) :
    (upTo vs args i).isEmpty = false := by
  obtain ⟨hlt, _⟩ := List.getElem?_eq_some_iff.1 hv
  obtain ⟨hlt', _⟩ := List.getElem?_eq_some_iff.1 ha
  have hlen : (vs.take i).length = i := by rw [List.length_take]; omega
  have hlen' : (args.take i).length = i := by rw [List.length_take]; omega
  obtain ⟨w, hw⟩ : ∃ w, w ∈ vs.take i := List.exists_mem_of_length_pos (by omega)
  obtain ⟨d, _, hget⟩ := get?_insertAll_of_mem (σ := empty) hw (hlen.trans hlen'.symm)
  rw [upTo_eq]
  exact isEmpty_eq_false_iff.2 ⟨w, d, hget⟩

theorem get?_insertAll_of_getElem? {σ : Substitution} {v : TypeVar} {a : Descriptor} (hvs : vs.Nodup)
    (hv : vs[i]? = some v) (ha : args[i]? = some a) : (σ.insertAll (vs.zip args)).get? v = some a := by
  induction vs generalizing σ args i with
  | nil => simp at hv
  | cons w vs ih =>
    obtain ⟨hw, hvs⟩ := List.nodup_cons.1 hvs
    cases args with
    | nil => simp at ha
    | cons d args =>
      cases i with
      | zero =>
        cases hv
        cases ha
        exact (get?_insertAll_of_not_mem (σ := σ.insert v a) hw).trans (by rw [get?_insert, if_pos rfl])
      | succ i => exact ih (σ := σ.insert w d) hvs hv ha

end Substitution

namespace Store

variable {s : Store} {v : TypeVar} {a bound : Descriptor}

/-! ## Bounds -/

/-- The bound, with what is known put in, is fit by the candidate, or it is left open. -/
def Keeps (s : Store) (known : Substitution) (v : TypeVar) (a bound : Descriptor) : Prop :=
  ∃ b, (boundScope v a known).apply bound = .ok b ∧ (b.hasVars = false → s.fitsBound a b = .ok true)

theorem checkBounds_eq_ok_iff {known : Substitution} :
    s.checkBounds v a known = .ok () ↔ ∀ bound ∈ s.boundsOf v, s.Keeps known v a bound := by
  rw [checkBounds, forM_eq_ok_iff]
  refine forall_congr' fun bound => imp_congr_right fun _ => ?_
  rw [bind_eq_ok_iff]
  refine exists_congr fun b => and_congr_right fun _ => ?_
  cases hvars : b.hasVars with
  | true => exact ⟨fun _ h => (by cases h), fun _ => rfl⟩
  | false =>
    cases hfits : s.fitsBound a b with
    | error fault => exact ⟨fun h => (by cases h), fun h => (by cases h rfl)⟩
    | ok fits =>
      cases fits with
      | false => exact ⟨fun h => (by cases h), fun h => (by cases h rfl)⟩
      | true => exact ⟨fun _ _ => rfl, fun _ => rfl⟩

theorem boundScope_of_isWildcard {known : Substitution} (ha : a.IsWildcard) : boundScope v a known = known := by
  obtain ⟨lower, upper, rfl⟩ := ha
  rfl

theorem boundScope_of_not_isWildcard {known : Substitution} (ha : ¬ a.IsWildcard) :
    boundScope v a known = known.insert v a := by
  cases a with
  | wildcard lower upper => exact absurd ⟨lower, upper, rfl⟩ ha
  | bare c => rfl
  | applied owner c args => rfl
  | var w => rfl

theorem boundScope_le {τ σ : Substitution} (h : τ.Le σ) : (boundScope v a τ).Le (boundScope v a σ) := by
  by_cases ha : a.IsWildcard
  · rw [boundScope_of_isWildcard ha, boundScope_of_isWildcard ha]
    exact h
  · rw [boundScope_of_not_isWildcard ha, boundScope_of_not_isWildcard ha]
    intro w d hw
    rw [Substitution.get?_insert] at hw ⊢
    split
    · rename_i heq
      rwa [if_pos heq] at hw
    · rename_i hne
      rw [if_neg hne] at hw
      exact h w d hw

/-- A bound that is kept when more is known is kept when less is: if it is not left open then, nothing more is put
in later. -/
theorem Keeps.of_le {τ σ : Substitution} (hle : τ.Le σ) (h : s.Keeps σ v a bound) : s.Keeps τ v a bound := by
  have hscope : (boundScope v a τ).Le (boundScope v a σ) := boundScope_le hle
  obtain ⟨b, hb, hfits⟩ := h
  obtain ⟨rfl, hdepth⟩ := Substitution.apply_eq_ok_iff.1 hb
  refine ⟨bound.subst (boundScope v a τ), Substitution.apply_eq_ok_iff.2 ⟨rfl, fun hempty => ?_⟩, fun hclosed => ?_⟩
  · obtain ⟨w, d, hw⟩ := Substitution.isEmpty_eq_false_iff.1 hempty
    exact hdepth (Substitution.isEmpty_eq_false_iff.2 ⟨w, d, hscope w d hw⟩)
  · have hsame : bound.subst (boundScope v a τ) = bound.subst (boundScope v a σ) := by
      refine Descriptor.subst_congr fun w hw => ?_
      cases hget : (boundScope v a τ).get? w with
      | some d => exact (hscope w d hget).symm
      | none =>
        have hopen : w ∈ (bound.subst (boundScope v a τ)).vars :=
          Descriptor.mem_vars_subst hw (by simp [hget, Descriptor.vars])
        rw [Descriptor.hasVars_eq] at hclosed
        simp only [Bool.not_eq_false', List.isEmpty_iff] at hclosed
        rw [hclosed] at hopen
        simp at hopen
    rw [hsame] at hclosed ⊢
    exact hfits hclosed

theorem Keeps.congr {τ σ : Substitution} (h : s.Keeps τ v a bound)
    (hvars : ∀ w ∈ bound.vars, (boundScope v a τ).get? w = (boundScope v a σ).get? w)
    (hdepth : (boundScope v a τ).isEmpty → bound.nesting ≤ maxActualizationDepth) : s.Keeps σ v a bound := by
  obtain ⟨b, hb, hfits⟩ := h
  obtain ⟨rfl, hnonempty⟩ := Substitution.apply_eq_ok_iff.1 hb
  rw [Descriptor.subst_congr hvars] at hfits
  refine ⟨_, Substitution.apply_eq_ok_iff.2 ⟨rfl, fun _ => ?_⟩, hfits⟩
  cases hempty : (boundScope v a τ).isEmpty with
  | true => exact hdepth hempty
  | false => exact hnonempty hempty

/-! ## Arguments and what is asked of them -/

/-- The argument number `i` is `a`, the variable that it fills is `v`, and this has the bound. -/
structure Asks (s : Store) (vs : List TypeVar) (args : List Descriptor) (i : Nat) (v : TypeVar)
    (a bound : Descriptor) : Prop where
  var : vs[i]? = some v
  arg : args[i]? = some a
  bound : bound ∈ s.boundsOf v

/-- A bound of the variable number `i` mentions a later one. -/
def LooksAhead (vs : List TypeVar) (i : Nat) (bound : Descriptor) : Prop := ∃ w ∈ vs.drop (i + 1), w ∈ bound.vars

/-- If the argument is a wildcard, the bound does not mention the variable itself, and it is not too deep where
nothing is known yet. -/
def Definite (i : Nat) (v : TypeVar) (a bound : Descriptor) : Prop :=
  a.IsWildcard → v ∉ bound.vars ∧ (i = 0 → bound.nesting ≤ maxActualizationDepth)

variable {vs : List TypeVar} {args : List Descriptor} {i : Nat}

/-- A bound that looks no further ahead says the same at once and in the end. -/
theorem Asks.keeps_of_upTo (hasks : s.Asks vs args i v a bound) (hahead : ¬ LooksAhead vs i bound)
    (hdef : Definite i v a bound) (h : s.Keeps (.upTo vs args i) v a bound) :
    s.Keeps (Substitution.empty.insertAll (vs.zip args)) v a bound := by
  have hdrop : vs.drop i = v :: vs.drop (i + 1) := by
    obtain ⟨hlt, hv⟩ := List.getElem?_eq_some_iff.1 hasks.var
    rw [List.drop_eq_getElem_cons hlt, hv]
  have hother : ∀ w ∈ bound.vars, w ≠ v → (Substitution.upTo vs args i).get? w =
      (Substitution.empty.insertAll (vs.zip args)).get? w := by
    intro w hw hne
    refine Substitution.get?_upTo_of_not_mem_drop fun hmem => ?_
    rw [hdrop] at hmem
    rcases List.mem_cons.1 hmem with heq | hmem
    · exact hne heq
    · exact hahead ⟨w, hmem, hw⟩
  by_cases ha : a.IsWildcard
  · obtain ⟨hself, hdepth⟩ := hdef ha
    refine h.congr ?_ ?_
    · intro w hw
      rw [boundScope_of_isWildcard ha, boundScope_of_isWildcard ha]
      exact hother w hw fun heq => hself (heq ▸ hw)
    · intro hempty
      rw [boundScope_of_isWildcard ha] at hempty
      refine hdepth ?_
      by_contra hi
      rw [Substitution.isEmpty_upTo hasks.var hasks.arg hi] at hempty
      cases hempty
  · refine h.congr ?_ ?_
    · intro w hw
      rw [boundScope_of_not_isWildcard ha, boundScope_of_not_isWildcard ha, Substitution.get?_insert,
        Substitution.get?_insert]
      split
      · rfl
      · rename_i hne
        exact hother w hw hne
    · intro hempty
      rw [boundScope_of_not_isWildcard ha] at hempty
      cases hempty

/-! ## The two ways -/

theorem takeForVar_run {n : Nat} {known : Substitution} (hv : known.get? v = none) :
    (s.takeForVar v).run ⟨a :: args, n, known⟩ =
      s.checkBounds v a known >>= fun _ => .ok (a, ⟨args, n + 1, known.insert v a⟩) := by
  rw [takeForVar]
  cases hcheck : s.checkBounds v a known with
  | error fault =>
    simp [hv, takeItem, hcheck]
    rfl
  | ok u =>
    simp [hv, takeItem, hcheck]
    rfl

/-- By position, each argument is checked with those before it known. -/
theorem mapM_replaceIn_vars {levels n : Nat} {known : Substitution} {ds : List Descriptor} {supply : Supply}
    (hvs : vs.Nodup) (hfree : ∀ v ∈ vs, known.get? v = none) (hl : vs.length = args.length) :
    ((vs.map Descriptor.var).mapM (Descriptor.replaceIn s.byPosition (levels + 1))).run ⟨args, n, known⟩ =
        .ok (ds, supply) ↔
      (∀ (i : Nat) v a, vs[i]? = some v → args[i]? = some a →
        s.checkBounds v a (known.insertAll ((vs.zip args).take i)) = .ok ()) ∧
      ds = args ∧ supply = ⟨[], n + args.length, known.insertAll (vs.zip args)⟩ := by
  induction vs generalizing args n known ds with
  | nil =>
    cases args with
    | cons d args => simp at hl
    | nil =>
      rw [List.map_nil, List.mapM_nil, StateT.run_pure]
      constructor
      · intro h
        cases h
        exact ⟨fun i v a hv => (by simp at hv), rfl, rfl⟩
      · rintro ⟨_, rfl, rfl⟩
        rfl
  | cons w vs ih =>
    cases args with
    | nil => simp at hl
    | cons d args =>
      obtain ⟨hw, hvs⟩ := List.nodup_cons.1 hvs
      obtain ⟨hwfree, hfree⟩ := List.forall_mem_cons.1 hfree
      have hfree' : ∀ v ∈ vs, (known.insert w d).get? v = none := by
        intro v hv
        have hne : v ≠ w := fun heq => hw (heq ▸ hv)
        rw [Substitution.get?_insert, if_neg hne]
        exact hfree v hv
      have hend : (⟨[], n + (d :: args).length, known.insertAll ((w :: vs).zip (d :: args))⟩ : Supply) =
          ⟨[], n + 1 + args.length, (known.insert w d).insertAll (vs.zip args)⟩ := by
        rw [List.length_cons, Nat.add_right_comm, Nat.add_assoc]
        rfl
      rw [hend, List.map_cons, List.mapM_cons, StateT.run_bind, replaceIn_byPosition_var,
        takeForVar_run hwfree, bind_eq_ok_iff]
      constructor
      · rintro ⟨_, hfirst, hrest⟩
        obtain ⟨_, hcheck, heq⟩ := bind_eq_ok_iff.1 hfirst
        cases heq
        rw [StateT.run_bind, bind_eq_ok_iff] at hrest
        obtain ⟨⟨rest, supply'⟩, hrest, heq⟩ := hrest
        cases heq
        obtain ⟨hchecks, rfl, rfl⟩ := (ih hvs hfree' (Nat.succ.inj hl)).1 hrest
        refine ⟨fun i v a hv ha => ?_, rfl, rfl⟩
        cases i with
        | zero =>
          cases hv
          cases ha
          exact hcheck
        | succ i => exact hchecks i v a hv ha
      · rintro ⟨hchecks, rfl, rfl⟩
        refine ⟨(d, ⟨args, n + 1, known.insert w d⟩), ?_, ?_⟩
        · exact bind_eq_ok_iff.2 ⟨(), hchecks 0 w d rfl rfl, rfl⟩
        · rw [StateT.run_bind, bind_eq_ok_iff]
          refine ⟨(args, _), (ih hvs hfree' (Nat.succ.inj hl)).2 ⟨fun i v a hv ha => ?_, rfl, rfl⟩, rfl⟩
          exact hchecks (i + 1) v a hv ha

theorem forall_checkBounds_iff {σ : Nat → Substitution} :
    (∀ (i : Nat) v a, vs[i]? = some v → args[i]? = some a → s.checkBounds v a (σ i) = .ok ()) ↔
      ∀ i v a bound, s.Asks vs args i v a bound → s.Keeps (σ i) v a bound := by
  simp only [checkBounds_eq_ok_iff]
  exact ⟨fun h i v a bound hasks => h i v a hasks.var hasks.arg bound hasks.bound,
    fun h i v a hv ha bound hbound => h i v a bound ⟨hv, ha, hbound⟩⟩

theorem actualize_queue_eq (c : ClassId) (ds args : List Descriptor) :
    s.actualize (.generic c ds) (.queue args) =
      (ds.mapM (Descriptor.replaceIn s.byPosition 63)).run ⟨args, 0, .empty⟩ >>= fun r =>
        if r.2.items.isEmpty then .ok (.generic c r.1)
        else .error (.excessBindings (s.text (.generic c ds)) r.2.items.length) := by
  rw [actualize_byPosition_eq, maxActualizationDepth, Descriptor.generic, Descriptor.replaceIn, Option.mapM_none,
    pure_bind, StateT.run_bind, bind_assoc]
  rfl

theorem actualize_queue_eq_ok_iff {c : ClassId} {d : Descriptor} (hvs : vs.Nodup) (hl : vs.length = args.length) :
    s.actualize (.generic c (vs.map .var)) (.queue args) = .ok d ↔
      d = .generic c args ∧
        ∀ i v a bound, s.Asks vs args i v a bound → s.Keeps (.upTo vs args i) v a bound := by
  have hrun : ∀ ds supply, ((vs.map Descriptor.var).mapM (Descriptor.replaceIn s.byPosition 63)).run ⟨args, 0, .empty⟩ =
      .ok (ds, supply) ↔ _ := fun ds supply =>
    mapM_replaceIn_vars hvs (fun v _ => Substitution.get?_empty v) hl
  rw [← forall_checkBounds_iff (σ := fun i => .upTo vs args i), actualize_queue_eq, bind_eq_ok_iff]
  constructor
  · rintro ⟨⟨ds, supply⟩, hds, heq⟩
    obtain ⟨hchecks, rfl, rfl⟩ := (hrun ds supply).1 hds
    exact ⟨(Except.ok.inj heq).symm, hchecks⟩
  · rintro ⟨rfl, hchecks⟩
    exact ⟨(args, _), (hrun args _).2 ⟨hchecks, rfl, rfl⟩, rfl⟩

theorem subst_generic_vars {c : ClassId} (hvs : vs.Nodup) (hl : vs.length = args.length) :
    (Descriptor.generic c (vs.map .var)).subst (Substitution.empty.insertAll (vs.zip args)) = .generic c args := by
  rw [Descriptor.generic, Descriptor.subst, Descriptor.substOwner_eq, Descriptor.substList_eq, List.map_map]
  refine congrArg (Descriptor.applied none c) (List.ext_getElem? fun i => ?_)
  rw [List.getElem?_map]
  cases hv : vs[i]? with
  | none =>
    rw [List.getElem?_eq_none_iff, hl] at hv
    exact (List.getElem?_eq_none hv).symm
  | some v =>
    obtain ⟨a, ha⟩ := exists_getElem?_of_length_eq hl hv
    simp [ha, Descriptor.subst, Substitution.get?_insertAll_of_getElem? hvs hv ha]

/-- By name, each argument is checked with all of them known. -/
theorem actualize_map_eq_ok_iff {c : ClassId} {d : Descriptor} (hvs : vs.Nodup) (hl : vs.length = args.length) :
    s.actualize (.generic c (vs.map .var)) (.map (Substitution.empty.insertAll (vs.zip args))) = .ok d ↔
      d = .generic c args ∧
        ∀ i v a bound, s.Asks vs args i v a bound →
          s.Keeps (Substitution.empty.insertAll (vs.zip args)) v a bound := by
  have hσ : ∀ (i : Nat) v a, vs[i]? = some v → args[i]? = some a →
      (Substitution.empty.insertAll (vs.zip args)).get? v = some a := fun i v a hv ha =>
    Substitution.get?_insertAll_of_getElem? hvs hv ha
  have htame : (Descriptor.generic c (vs.map .var)).Tame maxActualizationDepth
        (s.Permits (Substitution.empty.insertAll (vs.zip args))) ↔
      ∀ v ∈ vs, s.Permits (Substitution.empty.insertAll (vs.zip args)) v := by
    rw [Descriptor.generic, maxActualizationDepth, Descriptor.tame_applied_iff]
    simp [Descriptor.tame_var_iff]
  rw [← forall_checkBounds_iff (σ := fun _ => Substitution.empty.insertAll (vs.zip args)),
    actualize_byName_eq_ok_iff, subst_generic_vars hvs hl, htame]
  refine and_congr_right fun _ => ⟨fun h i v a hv ha => ?_, fun h v hv a ha => ?_⟩
  · exact h v (List.mem_of_getElem? hv) a (hσ i v a hv ha)
  · obtain ⟨i, hi⟩ := List.mem_iff_getElem?.1 hv
    obtain ⟨a', ha'⟩ := exists_getElem?_of_length_eq hl hi
    cases ha.symm.trans (hσ i v a' hi ha')
    exact h i v a hi ha'

end Store

theorem ClassDecl.nodup_ownVars {decl : ClassDecl} (h : (decl.params.map (·.name)).Nodup) (c : ClassId) :
    (decl.ownVars c).Nodup := by
  have hmap : decl.ownVars c = (decl.params.map (·.name)).map (TypeVar.mk (.ofClass c)) := by
    rw [ownVars, List.map_map]
    rfl
  rw [hmap]
  refine List.Pairwise.map _ (fun name name' hne heq => hne ?_) h
  cases heq
  rfl

theorem Key.generic_eq {s : Store} {c : ClassId} {args : List Descriptor} {t : Descriptor}
    (ht : s.template c = .ok t) : Key.generic s c args = s.actualize t (.queue args) >>= fun d => Key.of s d := by
  rw [Key.generic, ht]
  rfl

/-- What is accepted by name is accepted by position, and as a key, and the other way round if the bounds that look
ahead are kept. -/
theorem map_and_queue_agree_but_for_lookahead (s : Store) (c : ClassId) (decl : ClassDecl) (args : List Descriptor)
    (hc : s.get? c = some decl) (hp : decl.params ≠ []) (hnames : (decl.params.map (·.name)).Nodup)
    (hl : args.length = decl.arity) :
    ∃ t, s.template c = .ok t ∧
      (∀ d, s.actualize t (.map (decl.ownBindings c args)) = .ok d → s.actualize t (.queue args) = .ok d) ∧
      ((∀ i v a bound, s.Asks (decl.ownVars c) args i v a bound → Store.Definite i v a bound) →
        ∀ d, s.actualize t (.queue args) = .ok d →
          (∀ i v a bound, s.Asks (decl.ownVars c) args i v a bound → Store.LooksAhead (decl.ownVars c) i bound →
            s.Keeps (decl.ownBindings c args) v a bound) →
          s.actualize t (.map (decl.ownBindings c args)) = .ok d) ∧
      (∀ k, Key.generic s c args = .ok k →
        ∀ i v a bound, s.Asks (decl.ownVars c) args i v a bound → ¬ Store.LooksAhead (decl.ownVars c) i bound →
          Store.Definite i v a bound → s.Keeps (decl.ownBindings c args) v a bound) ∧
      ∀ k, Key.of s (.generic c args) = .ok k →
        (∀ i v a bound, s.Asks (decl.ownVars c) args i v a bound → s.Keeps (decl.ownBindings c args) v a bound) →
        Key.generic s c args = .ok k := by
  have hvs := ClassDecl.nodup_ownVars hnames c
  have hlen : (decl.ownVars c).length = args.length := by
    rw [ClassDecl.ownVars, List.length_map, hl]
    rfl
  have ht := Store.template_eq hc hp
  have hmap := fun d => Store.actualize_map_eq_ok_iff (s := s) (c := c) (d := d) hvs hlen
  have hqueue := fun d => Store.actualize_queue_eq_ok_iff (s := s) (c := c) (d := d) hvs hlen
  refine ⟨_, ht, ?_, ?_, ?_, ?_⟩
  · intro d hd
    obtain ⟨rfl, hkeeps⟩ := (hmap d).1 hd
    exact (hqueue _).2 ⟨rfl, fun i v a bound hasks => (hkeeps i v a bound hasks).of_le (Substitution.upTo_le hvs i)⟩
  · intro hdef d hd hahead
    obtain ⟨rfl, hkeeps⟩ := (hqueue d).1 hd
    refine (hmap _).2 ⟨rfl, fun i v a bound hasks => ?_⟩
    by_cases hlook : Store.LooksAhead (decl.ownVars c) i bound
    · exact hahead i v a bound hasks hlook
    · exact hasks.keeps_of_upTo hlook (hdef i v a bound hasks) (hkeeps i v a bound hasks)
  · intro k hk i v a bound hasks hlook hdef
    rw [Key.generic_eq ht, bind_eq_ok_iff] at hk
    obtain ⟨d, hd, _⟩ := hk
    exact hasks.keeps_of_upTo hlook hdef (((hqueue d).1 hd).2 i v a bound hasks)
  · intro k hk hkeeps
    rw [Key.generic_eq ht, bind_eq_ok_iff]
    refine ⟨.generic c args, (hqueue _).2 ⟨rfl, fun i v a bound hasks => ?_⟩, hk⟩
    exact (hkeeps i v a bound hasks).of_le (Substitution.upTo_le hvs i)

/-! ## Samples -/

/-- `Comparable<Comparable<..>>` of this depth, around `Number`. -/
def comparables : Nat → Descriptor
  | 0 => .bare ⟨2⟩
  | n + 1 => .generic ⟨4⟩ [comparables n]

/-- A pair whose first argument has to be below its second. -/
def pairDecl : ClassDecl :=
  ⟨.ordinary, "Pair", [⟨"T", [.var ⟨.ofClass ⟨5⟩, "U"⟩]⟩, ⟨"U", []⟩], [.bare ⟨1⟩], none⟩

/-- Next to it, a bag of things that compare to themselves, and a box with a bound
that is very deep. -/
def containers : Store := .built
  [.register ⟨.ordinary, "Object", [], [], none⟩,
    .register ⟨.ordinary, "Number", [], [.bare ⟨1⟩], none⟩,
    .register ⟨.ordinary, "Integer", [], [.bare ⟨2⟩], none⟩,
    .register ⟨.interface, "Comparable", [⟨"T", []⟩], [.bare ⟨1⟩], none⟩,
    .register pairDecl,
    .register ⟨.ordinary, "Bag", [⟨"T", [.generic ⟨4⟩ [.superOf (.var ⟨.ofClass ⟨6⟩, "T"⟩)]]⟩], [.bare ⟨1⟩], none⟩,
    .register ⟨.ordinary, "Box", [⟨"T", [comparables 64]⟩], [.bare ⟨1⟩], none⟩,
    .setRoot ⟨1⟩]

theorem containers_asks_pair {i : Nat} {v : TypeVar} {a bound : Descriptor}
    (h : containers.Asks (pairDecl.ownVars ⟨5⟩) [.bare ⟨3⟩, .bare ⟨2⟩] i v a bound) :
    v = ⟨.ofClass ⟨5⟩, "T"⟩ ∧ a = .bare ⟨3⟩ ∧ bound = .var ⟨.ofClass ⟨5⟩, "U"⟩ := by
  obtain ⟨hv, ha, hbound⟩ := h
  match i with
  | 0 =>
    cases hv
    cases ha
    exact ⟨rfl, rfl, List.mem_singleton.1 hbound⟩
  | 1 =>
    cases hv
    have hnone : containers.boundsOf ⟨.ofClass ⟨5⟩, "U"⟩ = [] := by rfl
    rw [hnone] at hbound
    simp at hbound
  | i + 2 => cases hv

/-- `Pair<Integer, Number>` is accepted by position and keeps to the bound that looks ahead, so it is accepted by name
and as a key. -/
theorem containers_accept_pair :
    containers.actualize (.generic ⟨5⟩ [.var ⟨.ofClass ⟨5⟩, "T"⟩, .var ⟨.ofClass ⟨5⟩, "U"⟩])
        (.map (pairDecl.ownBindings ⟨5⟩ [.bare ⟨3⟩, .bare ⟨2⟩])) = .ok (.generic ⟨5⟩ [.bare ⟨3⟩, .bare ⟨2⟩]) ∧
      ∃ k, Key.generic containers ⟨5⟩ [.bare ⟨3⟩, .bare ⟨2⟩] = .ok k := by
  obtain ⟨t, ht, _, hnamed, _, haccepted⟩ := map_and_queue_agree_but_for_lookahead containers ⟨5⟩ pairDecl
    [.bare ⟨3⟩, .bare ⟨2⟩] rfl (by decide) (by decide) rfl
  cases ht
  have hkeeps : ∀ i v a bound, containers.Asks (pairDecl.ownVars ⟨5⟩) [.bare ⟨3⟩, .bare ⟨2⟩] i v a bound →
      containers.Keeps (pairDecl.ownBindings ⟨5⟩ [.bare ⟨3⟩, .bare ⟨2⟩]) v a bound := by
    intro i v a bound hasks
    obtain ⟨rfl, rfl, rfl⟩ := containers_asks_pair hasks
    exact ⟨.bare ⟨2⟩, by rfl, fun _ => by rfl⟩
  have hdef : ∀ i v a bound, containers.Asks (pairDecl.ownVars ⟨5⟩) [.bare ⟨3⟩, .bare ⟨2⟩] i v a bound →
      Store.Definite i v a bound := by
    intro i v a bound hasks
    obtain ⟨_, rfl, _⟩ := containers_asks_pair hasks
    rintro ⟨lower, upper, heq⟩
    cases heq
  refine ⟨hnamed hdef _ (by rfl) fun i v a bound hasks _ => hkeeps i v a bound hasks, ?_⟩
  exact ⟨_, haccepted _ (by rfl) hkeeps⟩

/-- By position the arguments are accepted, and by name they are not. -/
def Store.Disagrees (s : Store) (c : ClassId) (args : List Descriptor) : Prop :=
  ∃ decl t d fault, s.get? c = some decl ∧ decl.params ≠ [] ∧ (decl.params.map (·.name)).Nodup ∧
    args.length = decl.arity ∧ s.template c = .ok t ∧ s.actualize t (.queue args) = .ok d ∧
    s.actualize t (.map (decl.ownBindings c args)) = .error fault

theorem nesting_comparables (n : Nat) : (comparables n).nesting = n + 1 := by
  induction n with
  | zero => rfl
  | succ n ih =>
    rw [comparables, Descriptor.generic, Descriptor.nesting, Descriptor.ownerNesting, Descriptor.listNesting, ih,
      Descriptor.listNesting]
    omega

/-- By position nothing is known of the box when its bound is checked, so the bound is not gone through. -/
theorem containers_box_by_position :
    containers.actualize (.generic ⟨7⟩ [.var ⟨.ofClass ⟨7⟩, "T"⟩]) (.queue [.unbounded]) =
      .ok (.generic ⟨7⟩ [.unbounded]) := by
  have hvars : [TypeVar.mk (.ofClass ⟨7⟩) "T"].Nodup := by decide
  refine (Store.actualize_queue_eq_ok_iff hvars rfl).2 ⟨rfl, ?_⟩
  rintro i v a bound ⟨hv, ha, hbound⟩
  cases i with
  | zero =>
    cases hv
    cases ha
    cases List.mem_singleton.1 hbound
    exact ⟨comparables 64, rfl, fun _ => by rfl⟩
  | succ i => cases hv

/-- By name a wildcard is known from the start, so the bound of the box is gone through. -/
theorem containers_box_too_deep :
    ∃ fault, containers.actualize (.generic ⟨7⟩ [.var ⟨.ofClass ⟨7⟩, "T"⟩])
      (.map (Substitution.empty.insert ⟨.ofClass ⟨7⟩, "T"⟩ .unbounded)) = .error fault := by
  cases h : containers.actualize (.generic ⟨7⟩ [.var ⟨.ofClass ⟨7⟩, "T"⟩])
      (.map (Substitution.empty.insert ⟨.ofClass ⟨7⟩, "T"⟩ .unbounded)) with
  | error fault => exact ⟨fault, rfl⟩
  | ok d =>
    have hpermits := (Store.actualize_byName_eq_ok_iff.1 h).2.vars ⟨.ofClass ⟨7⟩, "T"⟩ (by decide) .unbounded rfl
    obtain ⟨b, hb, _⟩ := Store.checkBounds_eq_ok_iff.1 hpermits (comparables 64) (List.mem_singleton.2 rfl)
    have hdepth := (Substitution.apply_eq_ok_iff.1 hb).2 rfl
    rw [nesting_comparables] at hdepth
    exact absurd hdepth (by decide)

/-- The two ways part where a bound looks ahead, where a wildcard fills a variable that is in its own bound, and where
a wildcard comes first and the bound is too deep. -/
theorem containers_disagree :
    containers.Disagrees ⟨5⟩ [.bare ⟨2⟩, .bare ⟨3⟩] ∧ containers.Disagrees ⟨6⟩ [.superOf (.bare ⟨2⟩)] ∧
      containers.Disagrees ⟨7⟩ [.unbounded] ∧
      (∃ k, Key.generic containers ⟨5⟩ [.bare ⟨2⟩, .bare ⟨3⟩] = .ok k) ∧
      containers.boundsOf ⟨.ofClass ⟨5⟩, "T"⟩ = [.var ⟨.ofClass ⟨5⟩, "U"⟩] ∧
      containers.isAssignable (.bare ⟨3⟩) (.bare ⟨2⟩) = .ok false := by
  obtain ⟨fault, hfault⟩ := containers_box_too_deep
  exact ⟨⟨_, _, _, _, rfl, by decide, by decide, rfl, rfl, by rfl, by rfl⟩,
    ⟨_, _, _, _, rfl, by decide, by decide, rfl, rfl, by rfl, by rfl⟩,
    ⟨_, _, _, fault, rfl, by decide, by decide, rfl, rfl, containers_box_by_position, hfault⟩, ⟨_, by rfl⟩,
    by rfl, by rfl⟩

end Generics
