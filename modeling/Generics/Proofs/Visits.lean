import Mathlib.Data.Set.Card
import Mathlib.Data.List.Induction
import Generics.Budget.Guard

/-! # A guard knows which visits are under way

A guard is told to enter keys and to leave them, in any order, and answers each attempt to enter. What came of the
calls is a record of events, and a key is under way if it was entered and has not been left since. As long as no key is
left that is not under way, the guard and the record agree (`Follows`): it visits the keys under way, each once, its
depth is their number, and it has counted every attempt. So the record alone says what the next attempt comes to. -/

namespace Generics.Guard
set_option autoImplicit false

variable {α : Type}

/-- Something to ask of a guard. -/
inductive Call (α : Type)
  | enter (key : α)
  | leave (key : α)

def Call.isEnter : Call α → Bool
  | .enter _ => true
  | .leave _ => false

/-- What came of a call. -/
inductive Event (α : Type)
  | tried (key : α) (visit : Visit)
  | left (key : α)

/-- The key was entered and has not been left since. -/
def UnderWay (events : List (Event α)) (key : α) : Prop :=
  ∃ before later, events = before ++ .tried key .entered :: later ∧ .left key ∉ later

/-- Some attempt was refused because of a limit. -/
def Exceeded (events : List (Event α)) : Prop := ∃ key, .tried key .tooDeep ∈ events ∨ .tried key .tooMany ∈ events

/-! ## One event more -/

theorem concat_eq_append_cons_iff {β : Type} {xs before later : List β} {x y : β} :
    xs ++ [x] = before ++ y :: later ↔
      (before = xs ∧ y = x ∧ later = []) ∨ ∃ rest, later = rest ++ [x] ∧ xs = before ++ y :: rest := by
  constructor
  · intro h
    rcases List.eq_nil_or_concat later with rfl | ⟨rest, last, rfl⟩
    · obtain ⟨hxs, hx⟩ := List.append_inj' h rfl
      exact .inl ⟨hxs.symm, (List.singleton_inj.1 hx).symm, rfl⟩
    · have h' : xs ++ [x] = (before ++ y :: rest) ++ [last] := by simpa using h
      obtain ⟨hxs, hx⟩ := List.append_inj' h' rfl
      cases List.singleton_inj.1 hx
      exact .inr ⟨rest, List.concat_eq_append, hxs⟩
  · rintro (⟨rfl, rfl, rfl⟩ | ⟨rest, rfl, rfl⟩)
    · rfl
    · simp

theorem underWay_concat {events : List (Event α)} {event : Event α} {key : α} :
    UnderWay (events ++ [event]) key ↔ event = .tried key .entered ∨ UnderWay events key ∧ event ≠ .left key := by
  constructor
  · rintro ⟨before, later, heq, hleft⟩
    rcases concat_eq_append_cons_iff.1 heq with ⟨_, hevent, _⟩ | ⟨rest, rfl, hevents⟩
    · exact .inl hevent.symm
    · rw [List.mem_append, not_or, List.mem_singleton] at hleft
      exact .inr ⟨⟨before, rest, hevents, hleft.1⟩, Ne.symm hleft.2⟩
  · rintro (rfl | ⟨⟨before, later, rfl, hleft⟩, hevent⟩)
    · exact ⟨events, [], rfl, List.not_mem_nil⟩
    · refine ⟨before, later ++ [event], by simp, ?_⟩
      rw [List.mem_append, not_or, List.mem_singleton]
      exact ⟨hleft, Ne.symm hevent⟩

theorem underWay_refused {events : List (Event α)} {key tried : α} {visit : Visit} (h : visit ≠ .entered) :
    UnderWay (events ++ [.tried tried visit]) key ↔ UnderWay events key := by
  rw [underWay_concat]
  constructor
  · rintro (heq | ⟨hkey, _⟩)
    · cases heq
      exact absurd rfl h
    · exact hkey
  · exact fun hkey => .inr ⟨hkey, by simp⟩

theorem underWay_entered {events : List (Event α)} {key entered : α} :
    UnderWay (events ++ [.tried entered .entered]) key ↔ key = entered ∨ UnderWay events key := by
  rw [underWay_concat]
  simp [eq_comm]

theorem underWay_left {events : List (Event α)} {key left : α} :
    UnderWay (events ++ [.left left]) key ↔ key ≠ left ∧ UnderWay events key := by
  rw [underWay_concat]
  simp [and_comm, eq_comm]

theorem exceeded_tried {events : List (Event α)} {key : α} {visit : Visit} :
    Exceeded (events ++ [.tried key visit]) ↔ Exceeded events ∨ visit = .tooDeep ∨ visit = .tooMany := by
  simp only [Exceeded, List.mem_append, List.mem_singleton, Event.tried.injEq]
  constructor
  · rintro ⟨key', (hdeep | ⟨_, rfl⟩) | (hmany | ⟨_, rfl⟩)⟩
    · exact .inl ⟨key', .inl hdeep⟩
    · exact .inr (.inl rfl)
    · exact .inl ⟨key', .inr hmany⟩
    · exact .inr (.inr rfl)
  · rintro (⟨key', hdeep | hmany⟩ | rfl | rfl)
    · exact ⟨key', .inl (.inl hdeep)⟩
    · exact ⟨key', .inr (.inl hmany)⟩
    · exact ⟨key, .inl (.inr ⟨rfl, rfl⟩)⟩
    · exact ⟨key, .inr (.inr ⟨rfl, rfl⟩)⟩

theorem exceeded_left {events : List (Event α)} {key : α} : Exceeded (events ++ [.left key]) ↔ Exceeded events := by
  simp [Exceeded]

/-! ## Guards and records -/

/-- The guard, with these limits, is as the record of so many attempts says. -/
structure Follows (maxDepth maxSteps attempts : Nat) (events : List (Event α)) (g : Guard α) : Prop where
  maxDepth_eq : g.maxDepth = maxDepth
  maxSteps_eq : g.maxSteps = maxSteps
  mem_visiting : ∀ key, key ∈ g.visiting ↔ UnderWay events key
  nodup : g.visiting.Nodup
  depth_eq : g.depth = g.visiting.length
  depth_le : g.depth ≤ maxDepth
  steps_eq : g.steps = min attempts maxCount
  exceeded_iff : g.exceeded = true ↔ Exceeded events

theorem follows_new (maxDepth maxSteps : Nat) : Follows maxDepth maxSteps 0 [] (new maxDepth maxSteps : Guard α) where
  maxDepth_eq := rfl
  maxSteps_eq := rfl
  mem_visiting key := by simp [new, UnderWay]
  nodup := List.nodup_nil
  depth_eq := rfl
  depth_le := Nat.zero_le maxDepth
  steps_eq := rfl
  exceeded_iff := by simp [new, Exceeded]

/-! ## One call -/

/-- The guard with one attempt more on its count. -/
def attempted (g : Guard α) : Guard α := { g with steps := min (g.steps + 1) maxCount }

theorem Follows.attempted_steps {maxDepth maxSteps attempts : Nat} {events : List (Event α)} {g : Guard α}
    (h : Follows maxDepth maxSteps attempts events g) :
    g.attempted.steps = min (attempts + 1) maxCount := by
  have hsteps : g.attempted.steps = min (g.steps + 1) maxCount := rfl
  rw [hsteps, h.steps_eq]
  omega

variable [DecidableEq α]

/-- All that an attempt can come to. -/
theorem enter_cases (g : Guard α) (key : α) :
    (g.maxSteps < g.attempted.steps ∧ g.enter key = (.tooMany, { g.attempted with exceeded := true })) ∨
    (g.attempted.steps ≤ g.maxSteps ∧ g.maxDepth ≤ g.depth ∧
      g.enter key = (.tooDeep, { g.attempted with exceeded := true })) ∨
    (g.attempted.steps ≤ g.maxSteps ∧ g.depth < g.maxDepth ∧ key ∈ g.visiting ∧
      g.enter key = (.cycle, g.attempted)) ∨
    (g.attempted.steps ≤ g.maxSteps ∧ g.depth < g.maxDepth ∧ key ∉ g.visiting ∧
      g.enter key = (.entered, { g.attempted with visiting := key :: g.visiting, depth := g.depth + 1 })) := by
  by_cases hsteps : g.maxSteps < g.attempted.steps
  · exact .inl ⟨hsteps, if_pos hsteps⟩
  by_cases hdepth : g.maxDepth ≤ g.depth
  · exact .inr (.inl ⟨Nat.not_lt.1 hsteps, hdepth, (if_neg hsteps).trans (if_pos hdepth)⟩)
  by_cases hkey : key ∈ g.visiting
  · exact .inr (.inr (.inl ⟨Nat.not_lt.1 hsteps, Nat.not_le.1 hdepth, hkey,
      (if_neg hsteps).trans ((if_neg hdepth).trans (if_pos hkey))⟩))
  · exact .inr (.inr (.inr ⟨Nat.not_lt.1 hsteps, Nat.not_le.1 hdepth, hkey,
      (if_neg hsteps).trans ((if_neg hdepth).trans (if_neg hkey))⟩))

/-- An attempt that is refused changes neither the keys being visited nor the depth. -/
theorem enter_refused {g : Guard α} {key : α} (h : (g.enter key).1 ≠ .entered) :
    (g.enter key).2.visiting = g.visiting ∧ (g.enter key).2.depth = g.depth := by
  rcases g.enter_cases key with ⟨_, heq⟩ | ⟨_, _, heq⟩ | ⟨_, _, _, heq⟩ | ⟨_, _, _, heq⟩
  · rw [heq]
    exact ⟨rfl, rfl⟩
  · rw [heq]
    exact ⟨rfl, rfl⟩
  · rw [heq]
    exact ⟨rfl, rfl⟩
  · rw [heq] at h
    exact absurd rfl h

def call (g : Guard α) : Call α → Event α × Guard α
  | .enter key => (.tried key (g.enter key).1, (g.enter key).2)
  | .leave key => (.left key, g.leave key)

/-- The guard as one call after the other leaves it. -/
def after (g : Guard α) (calls : List (Call α)) : Guard α := calls.foldl (fun g c => (g.call c).2) g

/-- What comes of one call after the other. -/
def record (g : Guard α) : List (Call α) → List (Event α)
  | [] => []
  | c :: calls => (g.call c).1 :: (g.call c).2.record calls

theorem after_concat (g : Guard α) (calls : List (Call α)) (c : Call α) :
    g.after (calls ++ [c]) = ((g.after calls).call c).2 := by
  rw [after, List.foldl_append]
  rfl

theorem record_concat (g : Guard α) (calls : List (Call α)) (c : Call α) :
    g.record (calls ++ [c]) = g.record calls ++ [((g.after calls).call c).1] := by
  induction calls generalizing g with
  | nil => rfl
  | cons d calls ih =>
    rw [List.cons_append, record, ih]
    rfl

/-- No key is left that is not under way. -/
def Balanced (g : Guard α) (calls : List (Call α)) : Prop :=
  ∀ before key later, calls = before ++ .leave key :: later → UnderWay (g.record before) key

theorem balanced_concat {g : Guard α} {calls : List (Call α)} {c : Call α} :
    g.Balanced (calls ++ [c]) ↔ g.Balanced calls ∧ ∀ key, c = .leave key → UnderWay (g.record calls) key := by
  constructor
  · intro h
    constructor
    · rintro before key later rfl
      exact h before key (later ++ [c]) (by simp)
    · rintro key rfl
      exact h calls key [] rfl
  · rintro ⟨hcalls, hlast⟩ before key later heq
    rcases concat_eq_append_cons_iff.1 heq with ⟨rfl, hc, _⟩ | ⟨rest, _, hcalls'⟩
    · exact hlast key hc.symm
    · exact hcalls before key rest hcalls'

section Follows

variable {maxDepth maxSteps attempts : Nat} {events : List (Event α)} {g : Guard α}

theorem Follows.enter (h : Follows maxDepth maxSteps attempts events g) (key : α) :
    Follows maxDepth maxSteps (attempts + 1) (events ++ [.tried key (g.enter key).1]) (g.enter key).2 := by
  have hsteps := h.attempted_steps
  rcases g.enter_cases key with ⟨_, heq⟩ | ⟨_, _, heq⟩ | ⟨_, _, _, heq⟩ | ⟨_, hdepth, hkey, heq⟩
  · rw [heq]
    exact { h with
      mem_visiting := fun key' => (h.mem_visiting key').trans (underWay_refused (by simp)).symm
      steps_eq := hsteps
      exceeded_iff := by simp [exceeded_tried] }
  · rw [heq]
    exact { h with
      mem_visiting := fun key' => (h.mem_visiting key').trans (underWay_refused (by simp)).symm
      steps_eq := hsteps
      exceeded_iff := by simp [exceeded_tried] }
  · rw [heq]
    exact { h with
      mem_visiting := fun key' => (h.mem_visiting key').trans (underWay_refused (by simp)).symm
      steps_eq := hsteps
      exceeded_iff := h.exceeded_iff.trans (by simp [exceeded_tried]) }
  · rw [heq]
    exact { h with
      mem_visiting := fun key' => by
        rw [underWay_entered, ← h.mem_visiting key']
        exact List.mem_cons
      nodup := List.nodup_cons.2 ⟨hkey, h.nodup⟩
      depth_eq := congrArg Nat.succ h.depth_eq
      depth_le := h.maxDepth_eq ▸ hdepth
      steps_eq := hsteps
      exceeded_iff := h.exceeded_iff.trans (by simp [exceeded_tried]) }

theorem Follows.leave (h : Follows maxDepth maxSteps attempts events g) {key : α} (hkey : UnderWay events key) :
    Follows maxDepth maxSteps attempts (events ++ [.left key]) (g.leave key) :=
  { h with
    mem_visiting := fun key' => by
      rw [underWay_left, ← h.mem_visiting key']
      exact h.nodup.mem_erase_iff
    nodup := h.nodup.erase key
    depth_eq := by
      rw [Guard.leave, List.length_erase_of_mem ((h.mem_visiting key).2 hkey), h.depth_eq]
    depth_le := (Nat.sub_le g.depth 1).trans h.depth_le
    exceeded_iff := h.exceeded_iff.trans exceeded_left.symm }

theorem follows_after {calls : List (Call α)} (h : (new maxDepth maxSteps : Guard α).Balanced calls) :
    Follows maxDepth maxSteps (calls.countP Call.isEnter) ((new maxDepth maxSteps).record calls)
      ((new maxDepth maxSteps).after calls) := by
  induction calls using List.reverseRecOn with
  | nil => exact follows_new maxDepth maxSteps
  | append_singleton calls c ih =>
    obtain ⟨hcalls, hlast⟩ := balanced_concat.1 h
    rw [after_concat, record_concat, List.countP_append]
    cases c with
    | enter key => exact (ih hcalls).enter key
    | leave key => exact (ih hcalls).leave (hlast key rfl)

theorem Follows.depth_eq_ncard (h : Follows maxDepth maxSteps attempts events g) :
    g.depth = {key | UnderWay events key}.ncard := by
  have hset : {key | UnderWay events key} = (g.visiting.toFinset : Set α) := by
    ext key
    simp [h.mem_visiting key]
  rw [hset, Set.ncard_coe_finset, List.toFinset_card_of_nodup h.nodup, h.depth_eq]

/-- What the next attempt comes to. -/
theorem Follows.visit_iff (h : Follows maxDepth maxSteps attempts events g) (key : α) :
    ((g.enter key).1 = .tooMany ↔ maxSteps < min (attempts + 1) maxCount) ∧
    ((g.enter key).1 = .tooDeep ↔ min (attempts + 1) maxCount ≤ maxSteps ∧ g.depth = maxDepth) ∧
    ((g.enter key).1 = .cycle ↔
      min (attempts + 1) maxCount ≤ maxSteps ∧ g.depth < maxDepth ∧ UnderWay events key) ∧
    ((g.enter key).1 = .entered ↔
      min (attempts + 1) maxCount ≤ maxSteps ∧ g.depth < maxDepth ∧ ¬ UnderWay events key) := by
  have hle := h.depth_le
  have hcases := g.enter_cases key
  rw [h.attempted_steps, h.maxSteps_eq, h.maxDepth_eq, h.mem_visiting] at hcases
  generalize min (attempts + 1) maxCount = count at hcases ⊢
  rcases hcases with ⟨hsteps, heq⟩ | ⟨hsteps, hdepth, heq⟩ | ⟨hsteps, hdepth, hkey, heq⟩ | ⟨hsteps, hdepth, hkey, heq⟩
  · simp [heq, hsteps, hsteps.not_ge]
  · simp [heq, hsteps, hsteps.not_gt, Nat.le_antisymm hle hdepth]
  · simp [heq, hsteps, hsteps.not_gt, hdepth, hdepth.ne, hkey]
  · simp [heq, hsteps, hsteps.not_gt, hdepth, hdepth.ne, hkey]

end Follows

/-- As long as no key is left that is not under way, all that a guard holds follows from the record of calls, and so
does its answer to the next attempt. -/
theorem guard_follows_record (maxDepth maxSteps : Nat) (calls : List (Call α)) (g : Guard α) (events : List (Event α))
    (hg : g = (new maxDepth maxSteps).after calls) (hevents : events = (new maxDepth maxSteps).record calls)
    (hbalanced : (new maxDepth maxSteps).Balanced calls) :
    (∀ key, key ∈ g.visiting ↔ UnderWay events key) ∧
    (g.depth = {key | UnderWay events key}.ncard ∧ g.depth ≤ maxDepth) ∧
    g.steps = min (calls.countP Call.isEnter) maxCount ∧
    (g.exceeded = true ↔ Exceeded events) ∧
    ∀ key,
      ((g.enter key).1 ≠ .entered → (g.enter key).2.visiting = g.visiting ∧ (g.enter key).2.depth = g.depth) ∧
      ((g.enter key).1 = .tooMany ↔ maxSteps < min (calls.countP Call.isEnter + 1) maxCount) ∧
      ((g.enter key).1 = .tooDeep ↔
        min (calls.countP Call.isEnter + 1) maxCount ≤ maxSteps ∧ g.depth = maxDepth) ∧
      ((g.enter key).1 = .cycle ↔
        min (calls.countP Call.isEnter + 1) maxCount ≤ maxSteps ∧ g.depth < maxDepth ∧ UnderWay events key) ∧
      ((g.enter key).1 = .entered ↔
        min (calls.countP Call.isEnter + 1) maxCount ≤ maxSteps ∧ g.depth < maxDepth ∧ ¬ UnderWay events key) := by
  have h : Follows maxDepth maxSteps (calls.countP Call.isEnter) events g := by
    rw [hg, hevents]
    exact follows_after hbalanced
  exact ⟨h.mem_visiting, ⟨h.depth_eq_ncard, h.depth_le⟩, h.steps_eq, h.exceeded_iff,
    fun key => ⟨enter_refused, h.visit_iff key⟩⟩

/-- Of three keys the third is too deep. When the first is left it can be entered, while the second, still under way,
is a cycle. -/
def interleaving : List (Call Nat) := [.enter 1, .enter 2, .enter 3, .leave 1, .enter 2, .enter 3]

/-- With five attempts at two levels there is no sixth. -/
theorem interleaving_followed :
    (new 2 5).Balanced interleaving ∧
      (new 2 5).record interleaving = [.tried 1 .entered, .tried 2 .entered, .tried 3 .tooDeep, .left 1,
        .tried 2 .cycle, .tried 3 .entered] ∧
      {key | UnderWay ((new 2 5).record interleaving) key}.ncard = 2 ∧
      ¬ UnderWay ((new 2 5).record interleaving) 1 ∧
      Exceeded ((new 2 5).record interleaving) ∧
      (((new 2 5).after interleaving).enter 1).1 = .tooMany := by
  have hbalanced : (new 2 5).Balanced interleaving := by
    intro before key later h
    have hfirst : before = [.enter 1, .enter 2, .enter 3] ∧ key = 1 := by
      rcases before with _ | ⟨_, _ | ⟨_, _ | ⟨_, _ | ⟨_, _ | ⟨_, _ | ⟨_, _⟩⟩⟩⟩⟩⟩ <;> simp [interleaving] at h
      obtain ⟨rfl, rfl, rfl, rfl, _⟩ := h
      exact ⟨rfl, rfl⟩
    rw [hfirst.1, hfirst.2]
    exact ⟨[], [.tried 2 .entered, .tried 3 .tooDeep], rfl, by simp⟩
  obtain ⟨hvisiting, ⟨hdepth, _⟩, _, hexceeded, hnext⟩ :=
    guard_follows_record 2 5 interleaving _ _ rfl rfl hbalanced
  refine ⟨hbalanced, rfl, hdepth.symm, ?_, hexceeded.1 rfl, (hnext 1).2.1.2 (by decide)⟩
  rw [← hvisiting 1]
  decide

end Generics.Guard
