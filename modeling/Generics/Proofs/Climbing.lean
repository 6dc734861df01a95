import Generics.Hierarchy.Supertype
import Generics.Proofs.Answers
import Generics.Proofs.Visits

/-! # The guarded walk is a walk along a path

`Store.walkUp` is the walk up without a guard: it is told the classes that it is below and the levels that are left,
and all that it carries along is the number of classes entered. The walk under a guard comes to the same
(`Store.asSupertype_eq`). The guard is inside the same classes, as deep and with the same limits whenever a class is
left, be it with a result or with a fault (`Restores`), so from one supertype to the next it says what the path
says. -/

namespace Generics
set_option autoImplicit false

open Result

namespace Store

/-! ## The walk along a path -/

/-- Walks up from `d` to `target` with so many levels left and the classes of `path` below. The state is the
number of classes entered. -/
def walkUp (s : Store) (target : ClassId) :
    Nat → List ClassId → Descriptor → StateT Nat Result (Option Descriptor)
  | levels, path, d => do
    let c ← s.rawOf d
    if c = target then return some d
    modify (· + 1)
    if maxHierarchyVisits < (← get) then throw Profile.hierarchyWalk.tooDeep
    match levels with
    | 0 => throw Profile.hierarchyWalk.tooDeep
    | levels + 1 =>
      if c ∈ path then return none
      let decl ← s.require c
      let view ← s.viewOf d decl
      decl.supertypes.findSomeM? fun supertype => do
        match ← seenFrom view supertype with
        | some above => s.walkUp target levels (c :: path) above
        | none => return none

/-- What the walk does with one supertype. -/
def walkInto (s : Store) (target : ClassId) (levels : Nat) (path : List ClassId) (view : Option Substitution)
    (supertype : Descriptor) : StateT Nat Result (Option Descriptor) := do
  match ← seenFrom view supertype with
  | some above => s.walkUp target levels path above
  | none => return none

theorem walkUp_run (s : Store) (target : ClassId) (levels : Nat) (path : List ClassId) (d : Descriptor)
    (n : Nat) :
    (s.walkUp target levels path d).run n = s.rawOf d >>= fun c =>
      if c = target then .ok (some d, n)
      else if maxHierarchyVisits < n + 1 then .error Profile.hierarchyWalk.tooDeep
      else match levels with
        | 0 => .error Profile.hierarchyWalk.tooDeep
        | levels + 1 =>
          if c ∈ path then .ok (none, n + 1)
          else s.require c >>= fun decl => s.viewOf d decl >>= fun view =>
            (decl.supertypes.findSomeM? (s.walkInto target levels (c :: path) view)).run (n + 1) := by
  rw [walkUp]
  cases hraw : s.rawOf d with
  | error fault => rfl
  | ok c =>
    by_cases hc : c = target
    · subst hc
      simp [ok_bind]
      rfl
    · by_cases hv : maxHierarchyVisits < n + 1
      · cases levels <;> simp [hc, hv, ok_bind] <;> rfl
      · cases levels with
        | zero =>
          simp [hc, hv, ok_bind]
          rfl
        | succ levels =>
          by_cases hp : c ∈ path
          · simp [hc, hv, hp, ok_bind]
            rfl
          · simp [hc, hv, hp, ok_bind]
            rfl

theorem walkInto_run (s : Store) (target : ClassId) (levels : Nat) (path : List ClassId)
    (view : Option Substitution) (supertype : Descriptor) (n : Nat) :
    (s.walkInto target levels path view supertype).run n = seenFrom view supertype >>= fun seen =>
      match seen with
      | some above => (s.walkUp target levels path above).run n
      | none => .ok (none, n) := by
  rw [walkInto]
  cases seenFrom view supertype with
  | error fault => rfl
  | ok seen =>
    cases seen with
    | none => rfl
    | some above => rfl

end Store

/-! ## What becomes of the guard -/

/-- The guard once it is inside a class more. -/
def Guard.entered (guard : Guard ClassId) (c : ClassId) : Guard ClassId :=
  { guard.attempted with visiting := c :: guard.visiting, depth := guard.depth + 1 }

section Guarded

variable {α β : Type}

theorem inside_run (c : ClassId) (body : WalkM (Option α)) (guard : Guard ClassId) :
    (inside c body).run guard =
      if guard.maxSteps < guard.attempted.steps then
        (.error Profile.hierarchyWalk.tooDeep, { guard.attempted with exceeded := true })
      else if guard.maxDepth ≤ guard.depth then
        (.error Profile.hierarchyWalk.tooDeep, { guard.attempted with exceeded := true })
      else if c ∈ guard.visiting then (.ok none, guard.attempted)
      else ((body.run (guard.entered c)).1, (body.run (guard.entered c)).2.leave c) := by
  rw [inside, ExceptT.run_mk]
  rcases guard.enter_cases c with ⟨hsteps, heq⟩ | ⟨hsteps, hdepth, heq⟩ | ⟨hsteps, hdepth, hc, heq⟩ |
    ⟨hsteps, hdepth, hc, heq⟩
  · rw [heq, if_pos hsteps]
  · rw [heq, if_neg (Nat.not_lt.2 hsteps), if_pos hdepth]
  · rw [heq, if_neg (Nat.not_lt.2 hsteps), if_neg (Nat.not_le.2 hdepth), if_pos hc]
  · rw [heq, if_neg (Nat.not_lt.2 hsteps), if_neg (Nat.not_le.2 hdepth), if_neg hc]
    rfl

/-- Whatever comes out, the guard is inside the classes that it was inside, as deep and with the same limits. -/
def Restores (x : WalkM α) : Prop :=
  ∀ guard : Guard ClassId, ∃ steps exceeded, (x.run guard).2 = { guard with steps, exceeded }

theorem Restores.bind {x : WalkM α} {f : α → WalkM β} (hx : Restores x) (hf : ∀ a, Restores (f a)) :
    Restores (x >>= f) := by
  intro guard
  obtain ⟨steps, exceeded, hguard⟩ := hx guard
  rw [stateful_bind_run, hguard]
  cases (x.run guard).1 with
  | error fault => exact ⟨steps, exceeded, rfl⟩
  | ok a => exact hf a { guard with steps, exceeded }

/-- A class is left as it was entered. -/
theorem Restores.inside {body : WalkM (Option α)} (h : Restores body) (c : ClassId) :
    Restores (Generics.inside c body) := by
  intro guard
  rw [inside_run]
  split
  · exact ⟨_, _, rfl⟩
  · split
    · exact ⟨_, _, rfl⟩
    · split
      · exact ⟨_, _, rfl⟩
      · obtain ⟨steps, exceeded, hguard⟩ := h (guard.entered c)
        refine ⟨steps, exceeded, ?_⟩
        rw [hguard]
        simp [Guard.entered, Guard.attempted, Guard.leave]

/-! ## The guard in place of the path -/

/-- A guard that is inside the classes of a path and has so many levels left. -/
structure Guard.Holds (guard : Guard ClassId) (path : List ClassId) (levels : Nat) : Prop where
  visiting : guard.visiting = path
  depth : guard.maxDepth = guard.depth + levels
  maxSteps : guard.maxSteps = maxHierarchyVisits

/-- Under a guard that holds the path, `x` comes to what `y` comes to from the number of classes entered, and the
guard counts on with `y`. -/
structure Tracks (path : List ClassId) (levels : Nat) (x : WalkM α) (y : Nat → Result (α × Nat)) : Prop where
  restores : Restores x
  answers : ∀ guard : Guard ClassId, guard.Holds path levels →
    (fun a => (a, (x.run guard).2.steps)) <$> (x.run guard).1 = y guard.steps

namespace Tracks

variable {path : List ClassId} {levels : Nat}

theorem pure (a : α) : Tracks path levels (Pure.pure a) fun n => .ok (a, n) :=
  ⟨fun guard => ⟨guard.steps, guard.exceeded, rfl⟩, fun _ _ => rfl⟩

theorem lift_bind (x : Result α) {f : α → WalkM β} {g : α → Nat → Result (β × Nat)}
    (h : ∀ a, x = .ok a → Tracks path levels (f a) (g a)) :
    Tracks path levels (liftM x >>= f) fun n => x >>= fun a => g a n := by
  cases x with
  | error fault => exact ⟨fun guard => ⟨guard.steps, guard.exceeded, rfl⟩, fun _ _ => rfl⟩
  | ok a => exact h a rfl

theorem bind {x : WalkM α} {y : Nat → Result (α × Nat)} {f : α → WalkM β} {g : α → Nat → Result (β × Nat)}
    (hx : Tracks path levels x y) (hf : ∀ a, Tracks path levels (f a) (g a)) :
    Tracks path levels (x >>= f) fun n => y n >>= fun r => g r.1 r.2 := by
  refine ⟨hx.restores.bind fun a => (hf a).restores, fun guard hguard => ?_⟩
  obtain ⟨steps, exceeded, hleft⟩ := hx.restores guard
  rw [stateful_bind_run, ← hx.answers guard hguard]
  cases (x.run guard).1 with
  | error fault => rfl
  | ok a =>
    have hholds : (x.run guard).2.Holds path levels := by
      rw [hleft]
      exact ⟨hguard.visiting, hguard.depth, hguard.maxSteps⟩
    exact (hf a).answers _ hholds

theorem findSomeM? {f : β → WalkM (Option α)} {g : β → StateT Nat Result (Option α)} {l : List β}
    (h : ∀ b, Tracks path levels (f b) (g b).run) : Tracks path levels (l.findSomeM? f) (l.findSomeM? g).run := by
  induction l with
  | nil => exact pure none
  | cons b l ih =>
    let rest (found : Option α) : Nat → Result (Option α × Nat) :=
      found.elim (l.findSomeM? g).run fun a n => .ok (some a, n)
    have hrun : (List.findSomeM? g (b :: l)).run = fun n => (g b).run n >>= fun r => rest r.1 r.2 := by
      funext n
      rw [findSomeM?_cons_run]
      refine bind_congr fun r => ?_
      obtain ⟨found, m⟩ := r
      cases found <;> rfl
    rw [hrun, List.findSomeM?]
    refine (h b).bind fun found => ?_
    cases found with
    | some a => exact pure (some a)
    | none => exact ih

/-- Without a level left a class is refused. -/
theorem inside_zero {body : WalkM (Option α)} (h : Restores body) (c : ClassId) :
    Tracks path 0 (inside c body) fun _ => .error Profile.hierarchyWalk.tooDeep := by
  refine ⟨h.inside c, fun guard hguard => ?_⟩
  have hdepth : guard.maxDepth ≤ guard.depth := Nat.le_of_eq hguard.depth
  rw [inside_run, if_pos hdepth]
  split <;> rfl

theorem inside_succ {body : WalkM (Option α)} {y : Nat → Result (Option α × Nat)} {c : ClassId}
    (h : Tracks (c :: path) levels body y) :
    Tracks path (levels + 1) (inside c body) fun n =>
      if maxHierarchyVisits < n + 1 then .error Profile.hierarchyWalk.tooDeep
      else if c ∈ path then .ok (none, n + 1)
      else y (n + 1) := by
  refine ⟨h.restores.inside c, fun guard hguard => ?_⟩
  have hdepth : ¬ guard.maxDepth ≤ guard.depth := by
    rw [hguard.depth]
    omega
  rw [inside_run, if_neg hdepth, hguard.maxSteps, hguard.visiting]
  by_cases hsteps : maxHierarchyVisits < guard.steps + 1
  · have hmany : maxHierarchyVisits < guard.attempted.steps := by
      simp only [Guard.attempted, maxHierarchyVisits, maxCount] at *
      omega
    rw [if_pos hsteps, if_pos hmany]
    rfl
  · have hcount : guard.attempted.steps = guard.steps + 1 := by
      simp only [Guard.attempted, maxHierarchyVisits, maxCount] at *
      omega
    rw [← hcount] at hsteps ⊢
    rw [if_neg hsteps, if_neg hsteps]
    by_cases hc : c ∈ path
    · rw [if_pos hc, if_pos hc]
      rfl
    · have hholds : (guard.entered c).Holds (c :: path) levels := by
        refine ⟨congrArg (c :: ·) hguard.visiting, ?_, hguard.maxSteps⟩
        simp only [Guard.entered, Guard.attempted, hguard.depth]
        omega
      rw [if_neg hc, if_neg hc]
      exact h.answers (guard.entered c) hholds

end Tracks

end Guarded

namespace Store

/-! ## The walks -/

theorem tracks_climb (s : Store) (target : ClassId) (levels : Nat) (path : List ClassId) (d : Descriptor) :
    Tracks path levels (s.climb target levels d) (s.walkUp target levels path d).run := by
  induction levels generalizing path d with
  | zero =>
    rw [funext (s.walkUp_run target 0 path d), climb]
    refine .lift_bind _ fun c _ => ?_
    by_cases hc : c = target
    · simp only [hc, if_true]
      exact .pure (some d)
    · simp only [hc, if_false, ite_self]
      exact .inside_zero (fun guard => ⟨guard.steps, guard.exceeded, rfl⟩) c
  | succ levels ih =>
    rw [funext (s.walkUp_run target (levels + 1) path d), climb]
    refine .lift_bind _ fun c _ => ?_
    by_cases hc : c = target
    · simp only [hc, if_true]
      exact .pure (some d)
    · simp only [hc, if_false]
      refine .inside_succ (y := fun n => s.require c >>= fun decl => s.viewOf d decl >>= fun view =>
        (decl.supertypes.findSomeM? (s.walkInto target levels (c :: path) view)).run n) ?_
      refine .lift_bind _ fun decl _ => .lift_bind _ fun view _ => .findSomeM? fun supertype => ?_
      rw [funext (s.walkInto_run target levels (c :: path) view supertype)]
      refine .lift_bind _ fun seen _ => ?_
      cases seen with
      | none => exact .pure none
      | some above => exact ih (c :: path) above

/-- The guarded walk comes to what the walk along a path comes to that begins below no class. -/
theorem asSupertype_eq (s : Store) (d : Descriptor) (target : ClassId) :
    s.asSupertype d target = (s.walkUp target maxHierarchyDepth [] d).run' 0 := by
  let guard : Guard ClassId := .ofProfile .hierarchyWalk
  have hholds : guard.Holds [] maxHierarchyDepth := ⟨rfl, (Nat.zero_add _).symm, rfl⟩
  have hsteps : guard.steps = 0 := rfl
  have hanswers := (s.tracks_climb target maxHierarchyDepth [] d).answers guard hholds
  rw [StateT.run'_eq, ← hsteps, ← hanswers, Functor.map_map]
  exact (id_map' _).symm

theorem restores_climb (s : Store) (target : ClassId) (levels : Nat) (d : Descriptor) :
    Restores (s.climb target levels d) :=
  (s.tracks_climb target levels [] d).restores

end Store

end Generics
