import Generics.Proofs.Interchange
import Generics.Proofs.Parametric

/-! # More levels change no answer

A check that goes too deep says so, and no rule makes anything else of that. So with more levels a check comes to the
same result, unless it had too few (`between_questions_of_le`). An answer is then good at any number of levels:
`Store.Grants` says that a yes was given at some, and `Store.Allows` that at none a no is. -/

namespace Generics
set_option autoImplicit false

open Result

/-- One result is the other, or it is the fault that cuts a check short. -/
def Settles {α : Type} (cut : Fault) (x y : Result α) : Prop := x = y ∨ x = .error cut

theorem Settles.bind {α β : Type} {cut : Fault} {x y : Result α} {f g : α → Result β} (h : Settles cut x y)
    (hfg : ∀ a, Settles cut (f a) (g a)) : Settles cut (x >>= f) (y >>= g) := by
  rcases h with rfl | rfl
  · cases x with
    | error fault => exact .inl rfl
    | ok a => exact hfg a
  · exact .inr rfl

def settling (cut : Fault) : Correspondence Result Result where
  Rel := Settles cut
  pure := fun _ => .inl rfl
  throw := fun _ => .inl rfl
  bind := Settles.bind

theorem Settles.eq_of_ok {α : Type} {cut : Fault} {x y : Result α} {a : α} (h : Settles cut x y)
    (hx : x = .ok a) : y = .ok a := by
  rcases h with rfl | rfl
  · exact hx
  · cases hx

namespace Store

variable {s : Store}

/-- With more levels a question comes to the same result, or it had gone too deep. The limits that the faults report
may differ. -/
theorem between_questions_of_le (s : Store) (p p' : Profile) {levels levels' : Nat} (h : levels ≤ levels') :
    (settling p.tooDeep).Between (s.questions p id levels) (s.questions p' id levels') := by
  induction levels generalizing levels' with
  | zero =>
    constructor
    · intro t d
      rw [assignable_questions_zero]
      exact .inr rfl
    · intro w d
      rw [contains_questions_zero]
      exact .inr rfl
  | succ levels ih =>
    obtain ⟨more, rfl⟩ := Nat.exists_eq_add_of_le' (Nat.le_trans (Nat.succ_le_succ (Nat.zero_le levels)) h)
    have hrest := ih (Nat.le_of_succ_le_succ h)
    constructor
    · intro t d
      rw [assignable_questions_succ, assignable_questions_succ]
      exact hrest.takes s t d
    · intro w d
      rw [contains_questions_succ, contains_questions_succ]
      exact (settling p.tooDeep).wildcardContains s hrest.assignable w d

/-! ## Answers at any number of levels -/

/-- What is asked with so many levels left. -/
abbrev asks (s : Store) (levels : Nat) : Questions Result := s.questions .assignability id levels

theorem assignable_of_le {levels levels' : Nat} {t u : Descriptor} {answer : Bool} (h : levels ≤ levels')
    (hanswer : (s.asks levels).assignable t u = .ok answer) : (s.asks levels').assignable t u = .ok answer :=
  ((s.between_questions_of_le .assignability .assignability h).assignable t u).eq_of_ok hanswer

/-- At some number of levels, types that are the same as these got the answer yes. -/
def Grants (s : Store) (t u : Descriptor) : Prop :=
  ∃ t' u' levels, t' == t ∧ u' == u ∧ (s.asks levels).assignable t' u' = .ok true

/-- At no number of levels is the answer no. -/
def Allows (s : Store) (t u : Descriptor) : Prop := ∀ levels, Decides True ((s.asks levels).assignable t u)

theorem grants_of_eq_ok {t u : Descriptor} {levels : Nat} (h : (s.asks levels).assignable t u = .ok true) :
    s.Grants t u := ⟨t, u, levels, BEq.rfl, BEq.rfl, h⟩

theorem respects_grants : Respects s.Grants := by
  rintro t t' u u' ht hu ⟨x, y, levels, hx, hy, h⟩
  exact ⟨x, y, levels, BEq.trans hx ht, BEq.trans hy hu, h⟩

theorem Grants.allows {t u : Descriptor} (h : s.Grants t u) : s.Allows t u := by
  obtain ⟨t', u', levels, ht, hu, hyes⟩ := h
  intro levels' answer hanswer
  -- both answers stand with the larger of the two numbers of levels
  have hyes' := assignable_of_le (Nat.le_max_left levels levels') hyes
  have hanswer' := assignable_of_le (Nat.le_max_right levels levels') hanswer
  have hsame := (s.consistent_questions .assignability _).assignable ht hu true answer hyes' hanswer'
  exact ⟨fun _ => trivial, fun _ => hsame.symm⟩

end Store

end Generics
