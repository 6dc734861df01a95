import Generics.Actualization.Visit
import Generics.Proofs.Answers

/-! # The traversal is the plain replacement

`Descriptor.replaceIn` fills placeholders by building everything again. The traversal that keeps what does not change
comes to the same (`Descriptor.filled_eq`): where it answers with nothing the plain replacement gives the descriptor
back, and a list that was copied up to some item is, from there on, what the plain replacement has for it
(`Descriptor.visitRest_run`). The counter is where it was after each part, so the levels that it has left are those of
the plain replacement. Where variables are replaced by name, this is `Descriptor.subst` if the descriptor is `Tame`
(`Descriptor.replaceIn_ofMap_eq_ok_iff`), and so with `Substitution.apply`. -/

namespace Generics
set_option autoImplicit false

/-- The levels that a counter has left. -/
def DepthCounter.room (counter : DepthCounter) : Nat := counter.maxDepth - counter.depth

namespace Descriptor

section Parts

variable {m : Type → Type} [Monad m] [LawfulMonad m]

/-- What comes of going through a part, with the part itself where nothing has changed. -/
def settled {α : Type} (old : α) (x : Option α × DepthCounter) : α × DepthCounter := (x.1.getD old, x.2)

/-- Two parts that are gone through one after the other are put together from what is new and what stays. -/
theorem merged_run {α β γ δ : Type} {x : StateT DepthCounter m (Option α)} {y : StateT DepthCounter m (Option β)}
    (keep : Option α → γ) (keep' : Option β → δ) (build : γ → δ → Descriptor) {new : m γ} {new' : DepthCounter → m δ}
    {counter : DepthCounter}
    (hx : (fun p => (keep p.1, p.2)) <$> x.run counter = (fun a => (a, counter)) <$> new)
    (hy : ∀ counter, (fun p => (keep' p.1, p.2)) <$> y.run counter = (fun b => (b, counter)) <$> new' counter) :
    settled (build (keep none) (keep' none)) <$> (show StateT DepthCounter m (Option Descriptor) from do
        let x' ← x
        let y' ← y
        if x'.isNone && y'.isNone then return none
        return some (build (keep x') (keep' y'))).run counter =
      (fun e => (e, counter)) <$> (do
        let a ← new
        let b ← new' counter
        return build a b) := by
  let join (a : γ) (q : δ × DepthCounter) : Descriptor × DepthCounter := (build a q.1, q.2)
  let rest (p : γ × DepthCounter) : m (Descriptor × DepthCounter) :=
    join p.1 <$> (fun b => (b, p.2)) <$> new' p.2
  have hrest : ∀ p : Option α × DepthCounter,
      join (keep p.1) <$> (fun q => (keep' q.1, q.2)) <$> y.run p.2 = rest (keep p.1, p.2) := fun p => by rw [hy]
  calc _ = x.run counter >>= fun p => join (keep p.1) <$> (fun q => (keep' q.1, q.2)) <$> y.run p.2 := by
        simp only [StateT.run_bind, map_bind, Functor.map_map]
        refine bind_congr fun p => ?_
        rw [map_eq_pure_bind]
        refine bind_congr fun q => ?_
        cases hp : p.1 <;> cases hq : q.1 <;> simp [settled, join]
    _ = (fun p => (keep p.1, p.2)) <$> x.run counter >>= rest := by
        rw [bind_map_left]
        exact bind_congr hrest
    _ = (fun a => (a, counter)) <$> new >>= rest := by rw [hx]
    _ = _ := by simp [rest, join]

end Parts

variable {m : Type → Type} [Monad m] [MonadExceptOf Fault m]

/-- The descriptor of at most so many levels with its placeholders filled. -/
def replaceIn (src : Source m) : Nat → Descriptor → m Descriptor
  | 0, _ => throw Profile.actualization.tooDeep
  | _ + 1, .bare c => return .bare c
  | levels + 1, .applied owner c args => do
    let owner ← owner.mapM fun d => replaceIn src levels d
    let args ← args.mapM fun d => replaceIn src levels d
    return .applied owner c args
  | _ + 1, .var v => return (← src.var v).getD (.var v)
  | levels + 1, .wildcard lower upper =>
    match src.wildcard with
    | some fill => fill ⟨lower, upper⟩
    | none => do
      let lower ← lower.mapM fun d => replaceIn src levels d
      let upper ← upper.mapM fun d => replaceIn src levels d
      return .wildcard lower upper

/-- Nothing comes after a fault. -/
def EndsAtFault (m : Type → Type) [Monad m] [MonadExceptOf Fault m] : Prop :=
  ∀ (α β : Type) (fault : Fault) (f : α → m β), (throw fault >>= f) = throw fault

variable [LawfulMonad m] {src : Source m}

/-! ## One level -/

theorem oneDown_run (hm : EndsAtFault m) {α : Type} (body : StateT DepthCounter m α) (counter : DepthCounter) :
    (oneDown body).run counter =
      if counter.maxDepth ≤ counter.depth then throw Profile.actualization.tooDeep
      else do
        let x ← body.run { counter with depth := counter.depth + 1 }
        return (x.1, x.2.leave) := by
  by_cases h : counter.maxDepth ≤ counter.depth
  · have hthrow : ∀ c : DepthCounter, (throw Profile.actualization.tooDeep : StateT DepthCounter m PUnit).run c =
        throw Profile.actualization.tooDeep := fun c => hm _ _ _ _
    simp [oneDown, DepthCounter.enter, h, hthrow, hm _ _ _ _]
  · simp [oneDown, DepthCounter.enter, h]

/-- Going through the descriptor comes to the plain replacement, whatever the counter says, and leaves it alone. -/
def IsReplaced (src : Source m) (d : Descriptor) : Prop :=
  ∀ counter, settled d <$> (visit src d).run counter = (fun e => (e, counter)) <$> replaceIn src counter.room d

/-- A level more is entered and left. -/
theorem isReplaced_of_body (hm : EndsAtFault m) {d : Descriptor} {body : StateT DepthCounter m (Option Descriptor)}
    (hvisit : visit src d = oneDown body)
    (hbody : ∀ counter : DepthCounter,
      settled d <$> body.run counter = (fun e => (e, counter)) <$> replaceIn src (counter.room + 1) d) :
    IsReplaced src d := by
  intro counter
  rw [hvisit, oneDown_run hm]
  by_cases h : counter.maxDepth ≤ counter.depth
  · have hroom : counter.room = 0 := Nat.sub_eq_zero_of_le h
    rw [if_pos h, hroom, replaceIn]
    simp only [map_eq_pure_bind, hm _ _ _ _]
  · rw [if_neg h]
    let below : DepthCounter := { counter with depth := counter.depth + 1 }
    have hroom : counter.room = below.room + 1 := by
      simp only [DepthCounter.room, below]
      omega
    have hleave : below.leave = counter := rfl
    calc settled d <$> (body.run below >>= fun x => pure (x.1, x.2.leave))
        = (fun x => (x.1, x.2.leave)) <$> settled d <$> body.run below := by simp [settled]
      _ = (fun x => (x.1, x.2.leave)) <$> (fun e => (e, below)) <$> replaceIn src (below.room + 1) d := by rw [hbody]
      _ = (fun e => (e, counter)) <$> replaceIn src counter.room d := by simp [hroom, hleave]

/-! ## Lists and owners -/

/-- What has been rebuilt goes on with what the plain replacement has for the rest. -/
theorem visitRest_run {ds : List Descriptor} (h : ∀ d ∈ ds, IsReplaced src d) (before : List Descriptor)
    (rebuilt : Option (List Descriptor)) (counter : DepthCounter) :
    settled (before ++ ds) <$> (visitRest src before rebuilt ds).run counter =
      (fun news => (rebuilt.getD before ++ news, counter)) <$> ds.mapM fun d => replaceIn src counter.room d := by
  induction ds generalizing before rebuilt counter with
  | nil => simp [visitRest, settled]
  | cons d ds ih =>
    -- what the next step finds rebuilt depends on the marker, but what is kept up to there does not
    let rest (x : Descriptor × DepthCounter) : m (List Descriptor × DepthCounter) :=
      (fun news => (rebuilt.getD before ++ [x.1] ++ news, x.2)) <$> ds.mapM fun d => replaceIn src x.2.room d
    have happend : before ++ d :: ds = (before ++ [d]) ++ ds := by simp
    have hds := ih fun d hd => h d (List.mem_cons_of_mem _ hd)
    have hd := h d List.mem_cons_self counter
    calc settled (before ++ d :: ds) <$> (visitRest src before rebuilt (d :: ds)).run counter
        = (visit src d).run counter >>= fun x => rest (settled d x) := by
          simp only [visitRest, StateT.run_bind, map_bind]
          refine bind_congr fun x => ?_
          rw [happend]
          cases hx : x.1 with
          | some new =>
            rw [hds]
            simp [rest, settled, hx]
          | none =>
            rw [hds]
            cases rebuilt <;> simp [rest, settled, hx]
      _ = settled d <$> (visit src d).run counter >>= rest := (bind_map_left ..).symm
      _ = (fun e => (e, counter)) <$> replaceIn src counter.room d >>= rest := by rw [hd]
      _ = _ := by simp [rest, List.mapM_cons]

theorem visitOwner_run {owner : Option Descriptor} (h : ∀ d, owner = some d → IsReplaced src d)
    (counter : DepthCounter) :
    (fun x => (x.1.or owner, x.2)) <$> (visitOwner src owner).run counter =
      (fun new => (new, counter)) <$> owner.mapM fun d => replaceIn src counter.room d := by
  cases owner with
  | none => simp [visitOwner]
  | some d =>
    have hsettled : (fun x : Option Descriptor × DepthCounter => (x.1.or (some d), x.2)) =
        (fun x => (some x.1, x.2)) ∘ settled d := by
      funext x
      cases hx : x.1 <;> simp [settled, hx]
    have hd := h d rfl counter
    rw [visitOwner, hsettled, comp_map, hd]
    simp

/-! ## The whole -/

theorem isReplaced (hm : EndsAtFault m) (src : Source m) (d : Descriptor) : IsReplaced src d := by
  induction d using Descriptor.induct with
  | bare c =>
    refine isReplaced_of_body hm (by rw [visit]) fun counter => ?_
    simp [replaceIn, settled]
  | applied owner c args ho ha =>
    refine isReplaced_of_body hm (by rw [visit]) fun counter => ?_
    exact merged_run (·.or owner) (·.getD args) (fun owner args => .applied owner c args) (visitOwner_run ho counter)
      (visitRest_run ha [] none)
  | var v =>
    refine isReplaced_of_body hm (by rw [visit]) fun counter => ?_
    simp [replaceIn, settled]
  | wildcard lower upper hl hu =>
    refine isReplaced_of_body hm (by rw [visit]) fun counter => ?_
    cases hw : src.wildcard with
    | some fill => simp [replaceIn, settled, hw]
    | none =>
      simp only [replaceIn, hw]
      exact merged_run (·.getD lower) (·.getD upper) .wildcard (visitRest_run hl [] none counter)
        (visitRest_run hu [] none)

/-- What the traversal fills is what the plain replacement fills, in as many levels as it may go down. -/
theorem filled_eq (hm : EndsAtFault m) (src : Source m) (d : Descriptor) :
    d.filled src = d.replaceIn src maxActualizationDepth := by
  have hrun := isReplaced hm src d (.ofProfile .actualization)
  calc d.filled src = Prod.fst <$> settled d <$> (visit src d).run (.ofProfile .actualization) := by
        simp [filled, settled, StateT.run'_eq]
    _ = d.replaceIn src maxActualizationDepth := by
        rw [hrun]
        simp [DepthCounter.room, DepthCounter.ofProfile, DepthCounter.new, Profile.maxDepth]

end Descriptor

open Result

theorem Result.endsAtFault : Descriptor.EndsAtFault Result := fun _ _ _ _ => rfl

theorem Result.endsAtFault_stateT (σ : Type) : Descriptor.EndsAtFault (StateT σ Result) := fun _ _ _ _ => rfl

namespace Descriptor

/-! ## What is asked of a template -/

/-- At most so many levels, and no variable without the property. -/
structure Tame (levels : Nat) (p : TypeVar → Prop) (d : Descriptor) : Prop where
  nesting_le : d.nesting ≤ levels
  vars : ∀ v ∈ d.vars, p v

variable {levels : Nat} {p : TypeVar → Prop}

theorem nesting_pos (d : Descriptor) : 0 < d.nesting := by
  cases d <;> simp [nesting]

theorem not_tame_zero (d : Descriptor) : ¬ d.Tame 0 p := by
  intro h
  have hle := h.nesting_le
  have hpos := d.nesting_pos
  omega

theorem listNesting_le_iff {ds : List Descriptor} : listNesting ds ≤ levels ↔ ∀ d ∈ ds, d.nesting ≤ levels := by
  induction ds with
  | nil => simp [listNesting]
  | cons d ds ih => simp only [listNesting, Nat.max_le, List.forall_mem_cons, ih]

theorem tame_list_iff {ds : List Descriptor} :
    (listNesting ds ≤ levels ∧ ∀ v ∈ listVars ds, p v) ↔ ∀ d ∈ ds, d.Tame levels p := by
  rw [listNesting_le_iff, listVars_eq]
  constructor
  · rintro ⟨hdepth, hvars⟩ d hd
    exact ⟨hdepth d hd, fun v hv => hvars v (List.mem_flatMap.2 ⟨d, hd, hv⟩)⟩
  · intro h
    refine ⟨fun d hd => (h d hd).nesting_le, fun v hv => ?_⟩
    obtain ⟨d, hd, hv⟩ := List.mem_flatMap.1 hv
    exact (h d hd).vars v hv

theorem tame_owner_iff {owner : Option Descriptor} :
    (ownerNesting owner ≤ levels ∧ ∀ v ∈ ownerVars owner, p v) ↔ ∀ o, owner = some o → o.Tame levels p := by
  cases owner with
  | none => simp [ownerNesting, ownerVars]
  | some o =>
    simp only [ownerNesting, ownerVars, Option.some.injEq, forall_eq']
    exact ⟨fun h => ⟨h.1, h.2⟩, fun h => ⟨h.nesting_le, h.vars⟩⟩

/-- A descriptor of two parts is tame if both of them are with a level less. -/
theorem tame_iff_of_parts {d : Descriptor} {m n : Nat} {vs ws : List TypeVar} (hnesting : d.nesting = max m n + 1)
    (hvars : d.vars = vs ++ ws) :
    d.Tame (levels + 1) p ↔ (m ≤ levels ∧ ∀ v ∈ vs, p v) ∧ n ≤ levels ∧ ∀ v ∈ ws, p v := by
  constructor
  · rintro ⟨hdepth, hp⟩
    rw [hvars, List.forall_mem_append] at hp
    exact ⟨⟨by omega, hp.1⟩, by omega, hp.2⟩
  · rintro ⟨⟨hm, hvs⟩, hn, hws⟩
    refine ⟨by omega, ?_⟩
    rw [hvars]
    exact List.forall_mem_append.2 ⟨hvs, hws⟩

theorem tame_applied_iff {owner : Option Descriptor} {c : ClassId} {args : List Descriptor} :
    (applied owner c args).Tame (levels + 1) p ↔
      (∀ o, owner = some o → o.Tame levels p) ∧ ∀ a ∈ args, a.Tame levels p := by
  rw [← tame_owner_iff, ← tame_list_iff]
  exact tame_iff_of_parts rfl rfl

theorem tame_wildcard_iff {lower upper : List Descriptor} :
    (wildcard lower upper).Tame (levels + 1) p ↔
      (∀ l ∈ lower, l.Tame levels p) ∧ ∀ u ∈ upper, u.Tame levels p := by
  rw [← tame_list_iff, ← tame_list_iff]
  exact tame_iff_of_parts rfl rfl

theorem tame_var_iff {v : TypeVar} : (var v).Tame (levels + 1) p ↔ p v := by
  constructor
  · exact fun h => h.vars v (by simp [vars])
  · intro h
    exact ⟨by simp [nesting], by simpa [vars] using h⟩

/-! ## By name -/

section Map

variable {σ : Substitution} {check : TypeVar → Descriptor → Result Unit}

theorem replaceIn_var_ofMap_eq_ok_iff {levels : Nat} {v : TypeVar} {e : Descriptor} :
    replaceIn (.ofMap σ check) (levels + 1) (.var v) = .ok e ↔
      e = (σ.get? v).getD (.var v) ∧ ∀ a, σ.get? v = some a → check v a = .ok () := by
  simp only [replaceIn, Source.ofMap]
  cases σ.get? v with
  | none => exact ⟨fun h => ⟨(Except.ok.inj h).symm, by simp⟩, fun h => congrArg Except.ok h.1.symm⟩
  | some a =>
    dsimp only
    rw [bind_assoc, bind_eq_ok_iff]
    constructor
    · rintro ⟨_, hcheck, h⟩
      exact ⟨(Except.ok.inj h).symm, fun a' heq => Option.some.inj heq ▸ hcheck⟩
    · rintro ⟨heq, hcheck⟩
      exact ⟨(), hcheck a rfl, congrArg Except.ok heq.symm⟩

/-- Replacement by name comes to the substituted descriptor, and it does if the descriptor is tame. -/
theorem replaceIn_ofMap_eq_ok_iff {levels : Nat} {d e : Descriptor} :
    replaceIn (.ofMap σ check) levels d = .ok e ↔
      e = d.subst σ ∧ d.Tame levels fun v => ∀ a, σ.get? v = some a → check v a = .ok () := by
  let permits (v : TypeVar) : Prop := ∀ a, σ.get? v = some a → check v a = .ok ()
  induction levels generalizing d e with
  | zero => exact ⟨fun h => (by cases h), fun h => (d.not_tame_zero h.2).elim⟩
  | succ levels ih =>
    have hlist : ∀ ds : List Descriptor, ∀ out, ds.mapM (fun d => replaceIn (.ofMap σ check) levels d) = .ok out ↔
        out = ds.map (·.subst σ) ∧ ∀ d ∈ ds, d.Tame levels permits :=
      fun ds => mapM_eq_ok_iff fun d _ b => ih
    have howner : ∀ owner : Option Descriptor, ∀ out,
        owner.mapM (fun d => replaceIn (.ofMap σ check) levels d) = .ok out ↔
          out = owner.map (·.subst σ) ∧ ∀ d, owner = some d → d.Tame levels permits :=
      fun owner => optionMapM_eq_ok_iff fun d _ b => ih
    cases d with
    | bare c =>
      rw [replaceIn, subst]
      refine ⟨fun h => ⟨(Except.ok.inj h).symm, ?_, ?_⟩, fun h => congrArg Except.ok h.1.symm⟩
      · simp [nesting]
      · simp [vars]
    | applied owner c args =>
      rw [replaceIn, tame_applied_iff, subst, substOwner_eq, substList_eq]
      exact bind_both_eq_ok_iff (howner owner) (hlist args)
    | var v =>
      rw [replaceIn_var_ofMap_eq_ok_iff, subst, tame_var_iff]
    | wildcard lower upper =>
      rw [replaceIn, tame_wildcard_iff, subst, substList_eq, substList_eq]
      exact bind_both_eq_ok_iff (hlist lower) (hlist upper)

/-- Where no check fails, there is nothing to fail but the depth. -/
theorem ensures_replaceIn_ofMap (hcheck : ∀ v a, check v a = .ok ()) (levels : Nat) (d : Descriptor) :
    Ensures (· = Profile.actualization.tooDeep) (fun _ => True) (replaceIn (.ofMap σ check) levels d) := by
  induction levels generalizing d with
  | zero => rfl
  | succ levels ih =>
    cases d with
    | bare c => exact trivial
    | applied owner c args =>
      rw [replaceIn]
      refine (ensures_optionMapM fun d _ => ih d).bind fun _ _ => ?_
      exact (ensures_mapM fun d _ => ih d).bind fun _ _ => trivial
    | var v => exact .of_eq_ok (replaceIn_var_ofMap_eq_ok_iff.2 ⟨rfl, fun a _ => hcheck v a⟩) trivial
    | wildcard lower upper =>
      rw [replaceIn]
      refine (ensures_mapM fun d _ => ih d).bind fun _ _ => ?_
      exact (ensures_mapM fun d _ => ih d).bind fun _ _ => trivial

end Map

end Descriptor

namespace Substitution

variable {σ : Substitution} {d e : Descriptor}

theorem apply_eq_ok_iff :
    σ.apply d = .ok e ↔ e = d.subst σ ∧ (σ.isEmpty = false → d.nesting ≤ maxActualizationDepth) := by
  rw [apply]
  cases h : σ.isEmpty with
  | true =>
    have hself : d.subst σ = d := by
      refine Descriptor.subst_eq_self fun v _ => ?_
      simp only [isEmpty, List.isEmpty_iff] at h
      simp [get?, h]
    simp [hself, eq_comm]
  | false =>
    simp only [Bool.false_eq_true, if_false, Descriptor.filled_eq Result.endsAtFault,
      Descriptor.replaceIn_ofMap_eq_ok_iff, forall_const]
    refine and_congr_right fun _ => ⟨fun htame => htame.nesting_le, fun hdepth => ⟨hdepth, fun _ _ _ _ => rfl⟩⟩

theorem apply_eq (σ : Substitution) (d : Descriptor) :
    σ.apply d =
      if σ.isEmpty then .ok d
      else if d.nesting ≤ maxActualizationDepth then .ok (d.subst σ)
      else .error Profile.actualization.tooDeep := by
  by_cases hempty : σ.isEmpty
  · rw [apply, if_pos hempty, if_pos hempty]
  · rw [if_neg hempty]
    by_cases hd : d.nesting ≤ maxActualizationDepth
    · rw [if_pos hd, apply_eq_ok_iff]
      exact ⟨rfl, fun _ => hd⟩
    · rw [if_neg hd]
      have hfault : Ensures (· = Profile.actualization.tooDeep) (fun _ => True) (σ.apply d) := by
        rw [apply, if_neg hempty, Descriptor.filled_eq Result.endsAtFault]
        exact Descriptor.ensures_replaceIn_ofMap (fun _ _ => rfl) _ d
      cases happly : σ.apply d with
      | error fault =>
        rw [happly] at hfault
        exact congrArg Except.error hfault
      | ok e => exact (hd ((apply_eq_ok_iff.1 happly).2 (by simpa using hempty))).elim

end Substitution

end Generics
