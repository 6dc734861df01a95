import Generics.Proofs.Checkers
import Generics.Proofs.Levels

/-! # Tighter limits flip no verdict

A checker counts its levels, and a level too many is a fault that no rule takes for an answer. So under a tighter
limit a call is cut short, or it comes to what it comes to under a wider one, whatever was asked of either checker
before: the calls of the past leave nothing behind but the note that some of them went too deep (`after_eq`), and two
runs of one call with different numbers of levels settle (`settles_plainReply`). -/

namespace Generics.Checker
set_option autoImplicit false

/-! ## Checkers with a past -/

/-- The checker as one call after the other leaves it. -/
def after (c : Checker) (calls : List Call) : Checker := calls.foldl (fun c call => (c.ask call).2) c

theorem after_eq (c : Checker) (calls : List Call) :
    ∃ exceeded, c.after calls = { c with counter := { c.counter with exceeded } } := by
  induction calls generalizing c with
  | nil => exact ⟨c.counter.exceeded, rfl⟩
  | cons call calls ih =>
    obtain ⟨seen, hask⟩ := c.ask_eq call
    obtain ⟨exceeded, hrest⟩ := ih (c.ask call).2
    refine ⟨exceeded, ?_⟩
    rw [hask] at hrest
    rw [after, List.foldl_cons, hask]
    exact hrest

theorem room_new (s : Store) (p : Profile) : (new s p).counter.room = p.maxDepth := Nat.sub_zero p.maxDepth

/-- After any calls, a new checker has all its levels for the next one. -/
theorem ask_after_new (s : Store) (p : Profile) (calls : List Call) (call : Call) :
    (((new s p).after calls).ask call).1 = call.plainReply s p p.maxDepth := by
  obtain ⟨seen, hafter⟩ := (new s p).after_eq calls
  obtain ⟨exceeded, hask⟩ := ((new s p).after calls).ask_eq call
  rw [hask, hafter]
  have hroom : min (p.maxDepth + 1) (new s p).counter.room = p.maxDepth := by
    rw [room_new]
    omega
  exact congrArg (call.plainReply s p) hroom

/-! ## Two limits -/

/-- The fault that stands in the place of an answer. -/
def Reply.fault? : Reply → Option Fault
  | .verdict (.error fault) => some fault
  | .reason (.error fault) => some fault
  | _ => none

theorem Reply.eq_or_cut {α : Type} {cut : Fault} {x y : Result α} (reply : Result α → Reply)
    (hfault : ∀ fault, (reply (.error fault)).fault? = some fault) (h : Settles cut x y) :
    reply x = reply y ∨ (reply x).fault? = some cut := by
  rcases h with rfl | rfl
  · exact .inl rfl
  · exact .inr (hfault cut)

/-- With more levels a call gets the same reply, or it had gone too deep. -/
theorem settles_plainReply (s : Store) (p p' : Profile) {levels levels' : Nat} (h : levels ≤ levels') (call : Call) :
    call.plainReply s p levels = call.plainReply s p' levels' ∨
      (call.plainReply s p levels).fault? = some p.tooDeep := by
  have hq := s.between_questions_of_le p p' h
  cases call with
  | assignable target source => exact Reply.eq_or_cut .verdict (fun _ => rfl) (hq.assignable target source)
  | explain target source => exact Reply.eq_or_cut .reason (fun _ => rfl) (hq.explain s target source)
  | contains w d =>
    exact Reply.eq_or_cut .verdict (fun _ => rfl) ((settling p.tooDeep).wildcardContains s hq.assignable w d)
  | within w bound =>
    exact Reply.eq_or_cut .verdict (fun _ => rfl) ((settling p.tooDeep).wildcardWithin hq.assignable w bound)

/-- On a checker with a tighter limit a call is cut short by that limit, or its reply, be it an answer or a fault, is
that of a checker with a wider one. -/
theorem tighter_limit_cuts_or_agrees (s : Store) {depth depth' : Nat} (hle : depth ≤ depth') (steps steps' : Nat)
    (past past' : List Call) :
    (∀ call : Call,
      let tight := (((new s (.custom depth steps)).after past).ask call).1
      let wide := (((new s (.custom depth' steps')).after past').ask call).1
      tight = wide ∨ tight.fault? = some (.depthExceeded .guardedComputation depth)) ∧
    ∀ (target source : Descriptor) (answer : Bool),
      (((new s (.custom depth steps)).after past).isAssignable target source).1 = .ok answer →
      (((new s (.custom depth' steps')).after past').isAssignable target source).1 = .ok answer := by
  have hcalls : ∀ call : Call,
      (((new s (.custom depth steps)).after past).ask call).1 =
          (((new s (.custom depth' steps')).after past').ask call).1 ∨
        (((new s (.custom depth steps)).after past).ask call).1.fault? =
          some (.depthExceeded .guardedComputation depth) := by
    intro call
    rw [ask_after_new, ask_after_new]
    exact settles_plainReply s (.custom depth steps) (.custom depth' steps') hle call
  refine ⟨hcalls, fun target source answer hanswer => ?_⟩
  rcases hcalls (.assignable target source) with hsame | hcut
  · have hverdict := Reply.verdict.inj hsame
    exact hverdict.symm.trans hanswer
  · have hverdict : (((new s (.custom depth steps)).after past).ask (.assignable target source)).1 =
        .verdict (.ok answer) := congrArg Reply.verdict hanswer
    rw [hverdict] at hcut
    cases hcut

/-- At two levels `Leaf<? extends Top>` goes too deep. On the checker that was asked so, `Leaf<?>` takes
`Leaf<Leaf<Top>>`, so it does at seven levels too. -/
theorem loops_limits :
    let leaves : Descriptor := .generic ⟨4⟩ [.generic ⟨4⟩ [.bare ⟨1⟩]]
    let deep : Call := .assignable (.generic ⟨4⟩ [.extending (.bare ⟨1⟩)]) leaves
    let tight := (new Store.loops (.custom 2 0)).after [deep]
    let wide := (new Store.loops (.custom 7 100)).after []
    (tight.ask deep).1.fault? = some (.depthExceeded .guardedComputation 2) ∧
      (wide.ask deep).1 = .verdict (.ok true) ∧
      (tight.isAssignable (.generic ⟨4⟩ [.unbounded]) leaves).1 = .ok true ∧
      (wide.isAssignable (.generic ⟨4⟩ [.unbounded]) leaves).1 = .ok true := by
  intro leaves deep tight wide
  have hle : 2 ≤ 7 := by decide
  have hyes : (tight.isAssignable (.generic ⟨4⟩ [.unbounded]) leaves).1 = .ok true := by rfl
  exact ⟨by rfl, by rfl, hyes, (tighter_limit_cuts_or_agrees Store.loops hle 0 100 [deep] []).2 _ _ true hyes⟩

end Generics.Checker
