import Generics.Assignability.Checker
import Generics.Proofs.Mismatch
import Generics.Proofs.Parametric

/-! # A checker keeps nothing of what it was asked

A check that counts its levels comes to what the same check comes to with so many levels as the counter has room
for, and hands the counter back as deep as it got it. `Computes` says both in one equation. It holds of each level,
which is entered and left again, and goes through sequences and through loops that stop early, so that every rule
has it whatever becomes of the questions it asks. What remains of a check is the note that it once went too deep,
and no later check reads it. -/

namespace Generics
set_option autoImplicit false

open Result

/-- With room for so many levels `x` comes to the result `y`, and it changes nothing on the counter except perhaps
the note that there was a level too many. -/
def Computes {α : Type} (room : Nat) (x : CheckM α) (y : Result α) : Prop :=
  ∀ c : DepthCounter, c.room = room → ∃ exceeded, x.run c = (y, { c with exceeded })

namespace Computes

variable {α β : Type} {room : Nat}

theorem bind {x : CheckM α} {y : Result α} {f : α → CheckM β} {g : α → Result β} (hx : Computes room x y)
    (hf : ∀ a, Computes room (f a) (g a)) : Computes room (x >>= f) (y >>= g) := by
  intro c hc
  obtain ⟨seen, hrun⟩ := hx c hc
  rw [stateful_bind_run, hrun]
  cases y with
  | error fault => exact ⟨seen, rfl⟩
  | ok a => exact hf a { c with exceeded := seen } hc

/-- Without room a level is refused, whatever would be done there. -/
theorem descend_zero (p : Profile) (x : CheckM α) : Computes 0 (descend p x) (.error p.tooDeep) := by
  intro c hc
  have hfull : c.maxDepth ≤ c.depth := Nat.sub_eq_zero_iff_le.1 hc
  exact ⟨true, by simp [descend, DepthCounter.enter, hfull, ExceptT.run, ExceptT.mk]⟩

/-- A level is left as it was entered, on success and on failure. -/
theorem descend_succ (p : Profile) {x : CheckM α} {y : Result α} (h : Computes room x y) :
    Computes (room + 1) (descend p x) y := by
  intro c hc
  have hroom : c.maxDepth - c.depth = room + 1 := hc
  have hopen : ¬ c.maxDepth ≤ c.depth := by omega
  obtain ⟨seen, hrun⟩ := h { c with depth := c.depth + 1 } (by simp only [DepthCounter.room]; omega)
  refine ⟨seen, ?_⟩
  simp only [descend, DepthCounter.enter, hopen, if_false, ExceptT.run, ExceptT.mk] at hrun ⊢
  rw [hrun]
  rfl

end Computes

/-- What is computed with so much room corresponds to a plain result. -/
def counting (room : Nat) : Correspondence CheckM Result where
  Rel := Computes room
  pure := fun _ c _ => ⟨c.exceeded, rfl⟩
  throw := fun _ c _ => ⟨c.exceeded, rfl⟩
  bind := Computes.bind

namespace Store

/-! ## Levels -/

theorem between_questions (s : Store) (p : Profile) (levels room : Nat) :
    (counting room).Between (s.questions p (descend p) levels) (s.questions p id (min levels room)) := by
  induction levels generalizing room with
  | zero =>
    rw [Nat.zero_min]
    constructor
    · intro t d
      rw [assignable_questions_zero]
      simp only [questions, assignableWithin]
      exact (counting room).throw p.tooDeep
    · intro w d
      rw [contains_questions_zero]
      simp only [questions, containsWithin]
      exact (counting room).throw p.tooDeep
  | succ levels ih =>
    cases room with
    | zero =>
      rw [Nat.min_zero]
      constructor
      · intro t d
        rw [assignable_questions_zero]
        simp only [questions, assignableWithin]
        exact Computes.descend_zero p _
      · intro w d
        rw [contains_questions_zero]
        simp only [questions, containsWithin]
        exact Computes.descend_zero p _
    | succ room =>
      rw [Nat.succ_min_succ]
      constructor
      · intro t d
        rw [assignable_questions_succ]
        simp only [questions, assignableWithin]
        exact Computes.descend_succ p ((ih room).takes s t d)
      · intro w d
        rw [contains_questions_succ]
        simp only [questions, containsWithin]
        exact Computes.descend_succ p ((counting room).wildcardContains s (ih room).assignable w d)

end Store

/-! ## One question after the other -/

namespace Checker

/-- Something to ask of a checker. -/
inductive Call
  | assignable (target source : Descriptor)
  | explain (target source : Descriptor)
  | contains (w : Wildcard) (d : Descriptor)
  | within (w : Wildcard) (bound : Descriptor)

/-- What a checker says: a verdict or the reason for a refusal, or a fault in the place of either. -/
inductive Reply
  | verdict (answer : Result Bool)
  | reason (answer : Result (Option Refusal))

def ask (c : Checker) : Call → Reply × Checker
  | .assignable target source => (c.isAssignable target source).map .verdict id
  | .explain target source => (c.explain target source).map .reason id
  | .contains w d => (c.contains w d).map .verdict id
  | .within w bound => (c.within w bound).map .verdict id

/-- The replies to one call after the other, each on the checker that the call before it left. -/
def replies (c : Checker) : List Call → List Reply
  | [] => []
  | call :: calls => (c.ask call).1 :: (c.ask call).2.replies calls

/-- The reply that only counts levels and has so many of them. -/
def Call.plainReply (s : Store) (p : Profile) (levels : Nat) (call : Call) : Reply :=
  let q : Questions Result := s.questions p id levels
  match call with
  | .assignable target source => .verdict (q.assignable target source)
  | .explain target source => .reason (s.explain q target source)
  | .contains w d => .verdict (s.wildcardContains q.assignable w d)
  | .within w bound => .verdict (Store.wildcardWithin q.assignable w bound)

theorem run_eq_of_computes {α : Type} {c : Checker} {x : CheckM α} {y : Result α}
    (h : Computes c.counter.room x y) :
    ∃ exceeded, c.run x = (y, { c with counter := { c.counter with exceeded } }) := by
  obtain ⟨exceeded, hrun⟩ := h c.counter rfl
  exact ⟨exceeded, by rw [run, hrun]⟩

/-- How many levels a question may go down. -/
def levels (c : Checker) : Nat := min (c.profile.maxDepth + 1) c.counter.room

/-- The checker's questions with nothing but levels to count. -/
def plain (c : Checker) : Questions Result := c.store.questions c.profile id c.levels

theorem fst_run {α : Type} {c : Checker} {x : CheckM α} {y : Result α} (h : Computes c.counter.room x y) :
    (c.run x).1 = y := by
  obtain ⟨exceeded, hrun⟩ := run_eq_of_computes h
  rw [hrun]

theorem between_plain (c : Checker) : (counting c.counter.room).Between c.questions c.plain :=
  c.store.between_questions c.profile (c.profile.maxDepth + 1) c.counter.room

theorem fst_isAssignable (c : Checker) (target source : Descriptor) :
    (c.isAssignable target source).1 = c.plain.assignable target source :=
  fst_run (c.between_plain.assignable target source)

theorem fst_explain (c : Checker) (target source : Descriptor) :
    (c.explain target source).1 = c.store.explain c.plain target source :=
  fst_run (c.between_plain.explain c.store target source)

/-- A call gives the plain reply for the levels that are left, and leaves the checker as it was but for the note that
there was a level too many. -/
theorem ask_eq (c : Checker) (call : Call) :
    ∃ exceeded, c.ask call = (call.plainReply c.store c.profile (min (c.profile.maxDepth + 1) c.counter.room),
      { c with counter := { c.counter with exceeded } }) := by
  have hq := c.store.between_questions c.profile (c.profile.maxDepth + 1) c.counter.room
  cases call with
  | assignable target source =>
    obtain ⟨exceeded, h⟩ := run_eq_of_computes (hq.assignable target source)
    exact ⟨exceeded, by rw [ask, isAssignable, questions, h]; rfl⟩
  | explain target source =>
    obtain ⟨exceeded, h⟩ := run_eq_of_computes (hq.explain c.store target source)
    exact ⟨exceeded, by rw [ask, Checker.explain, questions, h]; rfl⟩
  | contains w d =>
    obtain ⟨exceeded, h⟩ := run_eq_of_computes ((counting _).wildcardContains c.store hq.assignable w d)
    exact ⟨exceeded, by rw [ask, Checker.contains, questions, h]; rfl⟩
  | within w bound =>
    obtain ⟨exceeded, h⟩ := run_eq_of_computes ((counting _).wildcardWithin hq.assignable w bound)
    exact ⟨exceeded, by rw [ask, Checker.within, questions, h]; rfl⟩

/-- Replies do not depend on the note that a checker went too deep before. -/
theorem replies_eq_map (c : Checker) (calls : List Call) :
    c.replies calls =
      calls.map (Call.plainReply c.store c.profile (min (c.profile.maxDepth + 1) c.counter.room)) := by
  induction calls generalizing c with
  | nil => rfl
  | cons call calls ih =>
    obtain ⟨exceeded, h⟩ := c.ask_eq call
    rw [replies, h, ih, List.map_cons]
    rfl

/-- On one checker every call is answered as on a new one, whatever was asked before and however that ended; after
every call, answered or not, the checker is as deep as it was before. -/
theorem replies_without_history (s : Store) (p : Profile) (calls : List Call) :
    (new s p).replies calls = calls.map (fun call => ((new s p).ask call).1) ∧
      ∀ (c : Checker) (call : Call), (c.ask call).2.store = c.store ∧ (c.ask call).2.profile = c.profile ∧
        (c.ask call).2.counter.depth = c.counter.depth ∧ (c.ask call).2.counter.maxDepth = c.counter.maxDepth := by
  constructor
  · rw [replies_eq_map]
    refine List.map_congr_left fun call _ => ?_
    obtain ⟨exceeded, h⟩ := (new s p).ask_eq call
    rw [h]
  · intro c call
    obtain ⟨exceeded, h⟩ := c.ask_eq call
    rw [h]
    exact ⟨rfl, rfl, rfl, rfl⟩

example : (new Store.loops (.custom 1 0)).replies
    [.assignable (.generic ⟨4⟩ [.wildcard [] [.bare ⟨1⟩]]) (.generic ⟨4⟩ [.bare ⟨2⟩]),
      .assignable (.bare ⟨1⟩) (.bare ⟨4⟩)] =
    [.verdict (.error (.depthExceeded .guardedComputation 1)), .verdict (.ok true)] := by
  rfl

end Checker

end Generics
