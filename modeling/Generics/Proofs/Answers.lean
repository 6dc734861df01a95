import Generics.Fault

/-! # Answers of computations that may fail

* `bind_eq_ok_iff`, `allM_eq_true_iff`, `anyM_eq_false_iff` and their companions take a computation that gave
  an answer apart into computations that did.
* `Decides P` says of a computation that its answer, if it gives one, is whether `P` holds.
* `Ensures E P` says of a computation that its answer has the property `P`, or that its fault has the property
  `E`; it goes through sequences and through the loops over lists.
* `Agree R` says of two computations that their answers, if both give one, are related. A loop that stops early
  cannot tell two lists apart whose elements have partners that agree.
* `Together R` says of two computations that both give an answer, and related ones, or that neither does.
* A `Relator` is one of the last two, or another like them, and goes through the loops that carry a state.
* `Coincide P` says of two computations that they come to one and the same result, and that the property `P` holds
  of it if it is an answer. -/

namespace Generics.Result
set_option autoImplicit false

variable {α β : Type}

/-- With a state that survives a fault, what comes next is not reached after a fault. -/
theorem stateful_bind_run {σ : Type} (x : ExceptT Fault (StateM σ) α) (f : α → ExceptT Fault (StateM σ) β) (n : σ) :
    (x >>= f).run n = match (x.run n).1 with
      | .ok a => (f a).run (x.run n).2
      | .error fault => (.error fault, (x.run n).2) := by
  simp only [ExceptT.run, bind, ExceptT.bind, ExceptT.mk, ExceptT.bindCont, StateT.bind]
  rcases x n with ⟨result, m⟩
  cases result <;> rfl

/-! ## Answers that were given -/

theorem bind_eq_ok_iff {x : Result α} {f : α → Result β} {b : β} :
    (x >>= f) = .ok b ↔ ∃ a, x = .ok a ∧ f a = .ok b := by
  cases x with
  | error fault => exact ⟨fun h => (by cases h), fun ⟨_, h, _⟩ => (by cases h)⟩
  | ok a => exact ⟨fun h => ⟨a, rfl, h⟩, fun ⟨_, h, hf⟩ => (by cases h; exact hf)⟩

theorem ok_bind (a : α) (f : α → Result β) : ((.ok a : Result α) >>= f) = f a := rfl

theorem ofExcept_eq (x : Result α) : (ofExcept x : Result α) = x := by cases x <;> rfl

theorem map_eq_ok_iff {x : Result α} {f : α → β} {b : β} :
    (f <$> x) = .ok b ↔ ∃ a, x = .ok a ∧ f a = b := by
  cases x with
  | error fault => exact ⟨fun h => (by cases h), fun ⟨_, h, _⟩ => (by cases h)⟩
  | ok a => exact ⟨fun h => ⟨a, rfl, by cases h; rfl⟩, fun ⟨_, h, hf⟩ => (by cases h; rw [← hf]; rfl)⟩

theorem forM_eq_ok_iff {f : α → Result Unit} {l : List α} : l.forM f = .ok () ↔ ∀ a ∈ l, f a = .ok () := by
  induction l with
  | nil => exact ⟨fun _ _ h => by simp at h, fun _ => rfl⟩
  | cons a l ih =>
    rw [List.forM, bind_eq_ok_iff, List.forall_mem_cons, ← ih]
    exact ⟨fun ⟨_, ha, hl⟩ => ⟨ha, hl⟩, fun ⟨ha, hl⟩ => ⟨(), ha, hl⟩⟩

theorem bind_both_eq_ok_iff {γ : Type} {x : Result α} {y : Result β} {f : α → β → γ} {a : α} {b : β} {c : γ}
    {P Q : Prop}
    (hx : ∀ a', x = .ok a' ↔ a' = a ∧ P) (hy : ∀ b', y = .ok b' ↔ b' = b ∧ Q) :
    (do let a ← x; let b ← y; return f a b) = .ok c ↔ c = f a b ∧ P ∧ Q := by
  rw [bind_eq_ok_iff]
  constructor
  · rintro ⟨a', ha, hrest⟩
    obtain ⟨b', hb, heq⟩ := bind_eq_ok_iff.1 hrest
    obtain ⟨rfl, hP⟩ := (hx a').1 ha
    obtain ⟨rfl, hQ⟩ := (hy b').1 hb
    exact ⟨(Except.ok.inj heq).symm, hP, hQ⟩
  · rintro ⟨rfl, hP, hQ⟩
    exact ⟨a, (hx a).2 ⟨rfl, hP⟩, bind_eq_ok_iff.2 ⟨b, (hy b).2 ⟨rfl, hQ⟩, rfl⟩⟩

theorem mapM_eq_ok_iff {f : α → Result β} {g : α → β} {P : α → Prop} {l : List α}
    (h : ∀ a ∈ l, ∀ b, f a = .ok b ↔ b = g a ∧ P a) (out : List β) :
    l.mapM f = .ok out ↔ out = l.map g ∧ ∀ a ∈ l, P a := by
  induction l generalizing out with
  | nil =>
    rw [List.mapM_nil]
    exact ⟨fun heq => ⟨(Except.ok.inj heq).symm, by simp⟩, fun heq => congrArg Except.ok heq.1.symm⟩
  | cons a l ih =>
    obtain ⟨ha, hl⟩ := List.forall_mem_cons.1 h
    rw [List.mapM_cons, List.forall_mem_cons]
    exact bind_both_eq_ok_iff ha (ih hl)

theorem optionMapM_eq_ok_iff {f : α → Result β} {g : α → β} {P : α → Prop} {x : Option α}
    (h : ∀ a, x = some a → ∀ b, f a = .ok b ↔ b = g a ∧ P a)
    (out : Option β) : x.mapM f = .ok out ↔ out = x.map g ∧ ∀ a, x = some a → P a := by
  cases x with
  | none =>
    rw [Option.mapM_none]
    exact ⟨fun heq => ⟨(Except.ok.inj heq).symm, by simp⟩, fun heq => congrArg Except.ok heq.1.symm⟩
  | some a =>
    change some <$> f a = .ok out ↔ _
    rw [map_eq_ok_iff]
    constructor
    · rintro ⟨b, hb, rfl⟩
      obtain ⟨rfl, hP⟩ := (h a rfl b).1 hb
      exact ⟨rfl, fun a' heq => Option.some.inj heq ▸ hP⟩
    · rintro ⟨rfl, hP⟩
      exact ⟨g a, (h a rfl _).2 ⟨rfl, hP a rfl⟩, rfl⟩

theorem allM_cons_eq (p : α → Result Bool) (a : α) (l : List α) :
    (a :: l).allM p = p a >>= fun b => if b then l.allM p else .ok false := by
  rw [List.allM_cons]
  rfl

theorem anyM_cons_eq (p : α → Result Bool) (a : α) (l : List α) :
    (a :: l).anyM p = p a >>= fun b => if b then .ok true else l.anyM p := by
  rw [List.anyM_cons]
  rfl

theorem allM_eq_true_iff {p : α → Result Bool} {l : List α} :
    l.allM p = .ok true ↔ ∀ a ∈ l, p a = .ok true := by
  induction l with
  | nil => exact ⟨fun _ _ h => by simp at h, fun _ => rfl⟩
  | cons a l ih =>
    rw [allM_cons_eq, bind_eq_ok_iff]
    constructor
    · rintro ⟨b, hb, hl⟩
      cases b with
      | false => simp at hl
      | true => exact List.forall_mem_cons.2 ⟨hb, ih.1 hl⟩
    · intro h
      obtain ⟨ha, hl⟩ := List.forall_mem_cons.1 h
      exact ⟨true, ha, ih.2 hl⟩

theorem exists_of_allM_eq_false {p : α → Result Bool} {l : List α} (h : l.allM p = .ok false) :
    ∃ a ∈ l, p a = .ok false := by
  induction l with
  | nil => cases h
  | cons a l ih =>
    rw [allM_cons_eq, bind_eq_ok_iff] at h
    obtain ⟨b, hb, hl⟩ := h
    cases b with
    | false => exact ⟨a, List.mem_cons_self, hb⟩
    | true =>
      obtain ⟨x, hx, hp⟩ := ih hl
      exact ⟨x, List.mem_cons_of_mem a hx, hp⟩

theorem exists_of_anyM_eq_true {p : α → Result Bool} {l : List α} (h : l.anyM p = .ok true) :
    ∃ a ∈ l, p a = .ok true := by
  induction l with
  | nil => cases h
  | cons a l ih =>
    rw [anyM_cons_eq, bind_eq_ok_iff] at h
    obtain ⟨b, hb, hl⟩ := h
    cases b with
    | true => exact ⟨a, List.mem_cons_self, hb⟩
    | false =>
      obtain ⟨x, hx, hp⟩ := ih hl
      exact ⟨x, List.mem_cons_of_mem a hx, hp⟩

theorem anyM_eq_false_iff {p : α → Result Bool} {l : List α} :
    l.anyM p = .ok false ↔ ∀ a ∈ l, p a = .ok false := by
  induction l with
  | nil => exact ⟨fun _ _ h => by simp at h, fun _ => rfl⟩
  | cons a l ih =>
    rw [anyM_cons_eq, bind_eq_ok_iff]
    constructor
    · rintro ⟨b, hb, hl⟩
      cases b with
      | true => simp at hl
      | false => exact List.forall_mem_cons.2 ⟨hb, ih.1 hl⟩
    · intro h
      obtain ⟨ha, hl⟩ := List.forall_mem_cons.1 h
      exact ⟨false, ha, ih.2 hl⟩

theorem split_of_findM?_eq_some {p : α → Result Bool} {l : List α} {a : α} (h : l.findM? p = .ok (some a)) :
    ∃ before later, l = before ++ a :: later ∧ p a = .ok true ∧ ∀ b ∈ before, p b = .ok false := by
  induction l with
  | nil => cases h
  | cons x l ih =>
    rw [List.findM?, bind_eq_ok_iff] at h
    obtain ⟨found, hx, h⟩ := h
    cases found with
    | true =>
      cases h
      exact ⟨[], l, rfl, hx, by simp⟩
    | false =>
      obtain ⟨before, later, rfl, ha, hbefore⟩ := ih h
      exact ⟨x :: before, later, rfl, ha, List.forall_mem_cons.2 ⟨hx, hbefore⟩⟩

theorem filterAuxM_eq_ok {p : α → Result Bool} {l acc out : List α} (h : l.filterAuxM p acc = .ok out) :
    ∃ kept : List α, out = kept.reverse ++ acc ∧ kept.Sublist l ∧ (∀ a ∈ kept, p a = .ok true) ∧
      ∀ a ∈ l, a ∈ kept ∨ p a = .ok false := by
  induction l generalizing acc with
  | nil =>
    cases h
    exact ⟨[], rfl, .refl _, by simp, by simp⟩
  | cons x l ih =>
    rw [List.filterAuxM, bind_eq_ok_iff] at h
    obtain ⟨b, hb, h⟩ := h
    obtain ⟨kept, rfl, hsub, hkept, hrest⟩ := ih h
    cases b with
    | true =>
      refine ⟨x :: kept, by simp, hsub.cons_cons x, List.forall_mem_cons.2 ⟨hb, hkept⟩, ?_⟩
      exact List.forall_mem_cons.2 ⟨.inl List.mem_cons_self, fun a ha => (hrest a ha).imp_left (List.mem_cons_of_mem x)⟩
    | false => exact ⟨kept, rfl, hsub.cons x, hkept, List.forall_mem_cons.2 ⟨.inr hb, hrest⟩⟩

/-- A filter that gave an answer has kept what was answered with yes, and all else was answered with no. -/
theorem filterM_eq_ok {p : α → Result Bool} {l out : List α} (h : l.filterM p = .ok out) :
    out.Sublist l ∧ (∀ a ∈ out, p a = .ok true) ∧ ∀ a ∈ l, a ∈ out ∨ p a = .ok false := by
  rw [List.filterM, bind_eq_ok_iff] at h
  obtain ⟨backwards, hbackwards, h⟩ := h
  obtain ⟨kept, rfl, hkept⟩ := filterAuxM_eq_ok hbackwards
  cases h
  simpa using hkept

/-! ## Searches that carry a state -/

section State

variable {σ : Type} {f : α → StateT σ Result (Option β)}

theorem findSomeM?_cons_run (a : α) (l : List α) (n : σ) :
    ((a :: l).findSomeM? f).run n = (f a).run n >>= fun found =>
      match found.1 with
      | some b => .ok (some b, found.2)
      | none => (l.findSomeM? f).run found.2 := by
  rw [List.findSomeM?, StateT.run_bind]
  congr 1
  funext found
  cases found.1 <;> rfl

theorem exists_of_findSomeM?_run {l : List α} {b : β} {n n' : σ}
    (h : (l.findSomeM? f).run n = .ok (some b, n')) : ∃ a ∈ l, ∃ m m', (f a).run m = .ok (some b, m') := by
  induction l generalizing n with
  | nil => cases h
  | cons a l ih =>
    rw [findSomeM?_cons_run, bind_eq_ok_iff] at h
    obtain ⟨⟨found, m⟩, ha, hl⟩ := h
    cases found with
    | some b' =>
      cases hl
      exact ⟨a, List.mem_cons_self, n, m, ha⟩
    | none =>
      obtain ⟨x, hx, hf⟩ := ih hl
      exact ⟨x, List.mem_cons_of_mem a hx, hf⟩

theorem forall_of_findSomeM?_run {l : List α} {n n' : σ}
    (h : (l.findSomeM? f).run n = .ok (none, n')) : ∀ a ∈ l, ∃ m m', (f a).run m = .ok (none, m') := by
  induction l generalizing n with
  | nil => simp
  | cons a l ih =>
    rw [findSomeM?_cons_run, bind_eq_ok_iff] at h
    obtain ⟨⟨found, m⟩, ha, hl⟩ := h
    cases found with
    | some b' => cases hl
    | none => exact List.forall_mem_cons.2 ⟨⟨n, m, ha⟩, ih hl⟩

end State

/-! ## Answers that are right -/

/-- The answer, if there is one, says whether `P` holds. -/
def Decides (P : Prop) (x : Result Bool) : Prop := ∀ b, x = .ok b → (b = true ↔ P)

section Decides

variable {P Q : Prop}

theorem decides_ok {b : Bool} (h : b = true ↔ P) : Decides P (.ok b) := by
  intro b' hb
  cases hb
  exact h

theorem decides_error (fault : Fault) : Decides P (.error fault) := by
  intro b hb
  cases hb

theorem Decides.iff {x : Result Bool} (h : Decides P x) (hPQ : P ↔ Q) : Decides Q x :=
  fun b hb => (h b hb).trans hPQ

theorem Decides.bind {x : Result α} {f : α → Result Bool} (h : ∀ a, x = .ok a → Decides P (f a)) :
    Decides P (x >>= f) := by
  intro b hb
  obtain ⟨a, ha, hf⟩ := bind_eq_ok_iff.1 hb
  exact h a ha b hf

theorem Decides.and {x y : Result Bool} (hx : Decides P x) (hy : P → Decides Q y) :
    Decides (P ∧ Q) (x >>= fun b => if b then y else .ok false) := by
  refine Decides.bind fun b hb => ?_
  cases b with
  | false => exact decides_ok ⟨fun h => (by cases h), fun h => absurd ((hx false hb).2 h.1) (by simp)⟩
  | true =>
    have hP : P := (hx true hb).1 rfl
    exact (hy hP).iff ⟨fun hQ => ⟨hP, hQ⟩, fun h => h.2⟩

theorem Decides.not {x : Result Bool} (h : Decides P x) : Decides (¬ P) (x >>= fun b => .ok !b) := by
  refine Decides.bind fun b hb => decides_ok ?_
  rw [← h b hb]
  cases b <;> simp

theorem decides_allM {p : α → Result Bool} {P : α → Prop} {l : List α} (h : ∀ a ∈ l, Decides (P a) (p a)) :
    Decides (∀ a ∈ l, P a) (l.allM p) := by
  intro b hb
  cases b with
  | true => exact ⟨fun _ a ha => (h a ha true (allM_eq_true_iff.1 hb a ha)).1 rfl, fun _ => rfl⟩
  | false =>
    obtain ⟨a, ha, hp⟩ := exists_of_allM_eq_false hb
    exact ⟨fun h => (by cases h), fun hall => (h a ha false hp).2 (hall a ha)⟩

theorem decides_anyM {p : α → Result Bool} {P : α → Prop} {l : List α} (h : ∀ a ∈ l, Decides (P a) (p a)) :
    Decides (∃ a ∈ l, P a) (l.anyM p) := by
  intro b hb
  cases b with
  | true =>
    obtain ⟨a, ha, hp⟩ := exists_of_anyM_eq_true hb
    exact ⟨fun _ => ⟨a, ha, (h a ha true hp).1 rfl⟩, fun _ => rfl⟩
  | false =>
    refine ⟨fun h => (by cases h), fun hex => ?_⟩
    obtain ⟨a, ha, hP⟩ := hex
    exact (h a ha false (anyM_eq_false_iff.1 hb a ha)).2 hP

theorem decides_anyM_of_mem {p : α → Result Bool} {l : List α} {a : α} (ha : a ∈ l) (h : Decides True (p a)) :
    Decides True (l.anyM p) := by
  intro b hb
  cases b with
  | true => simp
  | false => exact h false (anyM_eq_false_iff.1 hb a ha)

theorem decides_findM?_isNone {p : α → Result Bool} {P : α → Prop} {l : List α}
    (h : ∀ a ∈ l, Decides (P a) (p a)) :
    Decides (∀ a ∈ l, ¬ P a) (l.findM? p >>= fun found => .ok found.isNone) := by
  induction l with
  | nil => exact decides_ok (by simp)
  | cons a l ih =>
    obtain ⟨ha, hl⟩ := List.forall_mem_cons.1 h
    rw [List.findM?, bind_assoc]
    refine Decides.bind fun b hb => ?_
    cases b with
    | true =>
      have hP : P a := (ha true hb).1 rfl
      exact decides_ok ⟨fun h => (by cases h), fun hall => absurd hP (hall a List.mem_cons_self)⟩
    | false =>
      refine (ih hl).iff ⟨fun hall => List.forall_mem_cons.2 ⟨fun hP => ?_, hall⟩,
        fun hall x hx => hall x (List.mem_cons_of_mem a hx)⟩
      exact absurd ((ha false hb).2 hP) (by simp)

end Decides

/-! ## Answers and faults of a kind -/

/-- The answer has the property `P`, or the fault has the property `E`. -/
def Ensures (E : Fault → Prop) (P : α → Prop) : Result α → Prop
  | .ok a => P a
  | .error fault => E fault

section Ensures

variable {E : Fault → Prop} {P : α → Prop} {Q : β → Prop}

theorem Ensures.fault_mono {E' : Fault → Prop} {x : Result α} (h : Ensures E P x)
    (hE : ∀ fault, E fault → E' fault) : Ensures E' P x := by
  cases x with
  | error fault => exact hE fault h
  | ok a => exact h

theorem Ensures.bind {x : Result α} {f : α → Result β} (h : Ensures E P x)
    (hf : ∀ a, P a → Ensures E Q (f a)) : Ensures E Q (x >>= f) := by
  cases x with
  | error fault => exact h
  | ok a => exact hf a h

theorem Ensures.map {x : Result α} {f : α → β} (h : Ensures E P x) (hf : ∀ a, P a → Q (f a)) :
    Ensures E Q (f <$> x) := by
  cases x with
  | error fault => exact h
  | ok a => exact hf a h

theorem Ensures.of_eq_ok {x : Result α} {a : α} (h : x = .ok a) (ha : P a) : Ensures E P x := by
  rw [h]
  exact ha

theorem Ensures.and {P' : α → Prop} {x : Result α} (h : Ensures E P x) (h' : ∀ a, x = .ok a → P' a) :
    Ensures E (fun a => P a ∧ P' a) x := by
  cases x with
  | error fault => exact h
  | ok a => exact ⟨h, h' a rfl⟩

theorem ensures_allM {p : α → Result Bool} {l : List α}
    (h : ∀ a ∈ l, Ensures E (fun _ => True) (p a)) : Ensures E (fun _ => True) (l.allM p) := by
  induction l with
  | nil => exact trivial
  | cons a l ih =>
    rw [allM_cons_eq]
    refine (h a List.mem_cons_self).bind fun b _ => ?_
    cases b with
    | false => exact trivial
    | true => exact ih fun x hx => h x (List.mem_cons_of_mem a hx)

theorem ensures_anyM {p : α → Result Bool} {l : List α}
    (h : ∀ a ∈ l, Ensures E (fun _ => True) (p a)) : Ensures E (fun _ => True) (l.anyM p) := by
  induction l with
  | nil => exact trivial
  | cons a l ih =>
    rw [anyM_cons_eq]
    refine (h a List.mem_cons_self).bind fun b _ => ?_
    cases b with
    | true => exact trivial
    | false => exact ih fun x hx => h x (List.mem_cons_of_mem a hx)

theorem ensures_findM? {p : α → Result Bool} {l : List α}
    (h : ∀ a ∈ l, Ensures E (fun _ => True) (p a)) : Ensures E (fun _ => True) (l.findM? p) := by
  induction l with
  | nil => exact trivial
  | cons a l ih =>
    rw [List.findM?]
    refine (h a List.mem_cons_self).bind fun b _ => ?_
    cases b with
    | true => exact trivial
    | false => exact ih fun x hx => h x (List.mem_cons_of_mem a hx)

theorem ensures_forM {f : α → Result Unit} {l : List α}
    (h : ∀ a ∈ l, Ensures E (fun _ => True) (f a)) : Ensures E (fun _ => True) (l.forM f) := by
  induction l with
  | nil => exact trivial
  | cons a l ih =>
    obtain ⟨ha, hl⟩ := List.forall_mem_cons.1 h
    exact ha.bind fun _ _ => ih hl

theorem ensures_mapM {f : α → Result β} {l : List α} (h : ∀ a ∈ l, Ensures E (fun _ => True) (f a)) :
    Ensures E (fun _ => True) (l.mapM f) := by
  induction l with
  | nil => exact trivial
  | cons a l ih =>
    obtain ⟨ha, hl⟩ := List.forall_mem_cons.1 h
    rw [List.mapM_cons]
    exact ha.bind fun _ _ => (ih hl).bind fun _ _ => trivial

theorem ensures_optionMapM {f : α → Result β} {x : Option α}
    (h : ∀ a, x = some a → Ensures E (fun _ => True) (f a)) : Ensures E (fun _ => True) (x.mapM f) := by
  cases x with
  | none => exact trivial
  | some a => exact (h a rfl).map fun _ _ => trivial

theorem ensures_findSomeM?_run {σ : Type} {f : α → StateT σ Result (Option β)} {l : List α}
    {P : Option β × σ → Prop} (hnone : ∀ n, P (none, n)) (h : ∀ a ∈ l, ∀ n, Ensures E P ((f a).run n)) (n : σ) :
    Ensures E P ((l.findSomeM? f).run n) := by
  induction l generalizing n with
  | nil => exact hnone n
  | cons a l ih =>
    rw [findSomeM?_cons_run]
    refine (h a List.mem_cons_self n).bind fun found hfound => ?_
    obtain ⟨found, m⟩ := found
    cases found with
    | some b => exact hfound
    | none => exact ih (fun x hx => h x (List.mem_cons_of_mem a hx)) m

end Ensures

/-! ## Answers that go together -/

/-- The answers, where both computations give one, are related. -/
def Agree (R : α → β → Prop) (x : Result α) (y : Result β) : Prop := ∀ a b, x = .ok a → y = .ok b → R a b

section Agree

variable {γ δ : Type} {R : α → β → Prop} {S : γ → δ → Prop}

theorem agree_ok {a : α} {b : β} (h : R a b) : Agree R (.ok a) (.ok b) := by
  intro a' b' ha hb
  cases ha
  cases hb
  exact h

theorem agree_error (fault fault' : Fault) : Agree R (.error fault) (.error fault') := by
  intro a b ha
  cases ha

theorem agree_refl (x : Result α) : Agree (· = ·) x x := by
  intro a b ha hb
  rw [ha] at hb
  exact Except.ok.inj hb

theorem Decides.agree {P : Prop} {x y : Result Bool} (hx : Decides P x) (hy : Decides P y) : Agree (· = ·) x y :=
  fun a b ha hb => Bool.eq_iff_iff.2 ((hx a ha).trans (hy b hb).symm)

theorem Agree.bind {x : Result α} {y : Result β} {f : α → Result γ} {g : β → Result δ} (h : Agree R x y)
    (hfg : ∀ a b, R a b → Agree S (f a) (g b)) : Agree S (x >>= f) (y >>= g) := by
  intro c d hc hd
  obtain ⟨a, ha, hf⟩ := bind_eq_ok_iff.1 hc
  obtain ⟨b, hb, hg⟩ := bind_eq_ok_iff.1 hd
  exact hfg a b (h a b ha hb) c d hf hg

theorem Agree.and {x x' y y' : Result Bool} (hx : Agree (· = ·) x x') (hy : Agree (· = ·) y y') :
    Agree (· = ·) (x >>= fun b => if b then y else .ok false) (x' >>= fun b => if b then y' else .ok false) := by
  refine hx.bind fun b b' heq => ?_
  cases heq
  cases b with
  | false => exact agree_ok rfl
  | true => exact hy

section Loops

variable {p : α → Result Bool} {p' : β → Result Bool} {l : List α} {l' : List β}

theorem agree_allM (hl : ∀ a ∈ l, ∃ b ∈ l', Agree (· = ·) (p a) (p' b))
    (hr : ∀ b ∈ l', ∃ a ∈ l, Agree (· = ·) (p a) (p' b)) : Agree (· = ·) (l.allM p) (l'.allM p') := by
  intro x y hx hy
  cases x with
  | true =>
    cases y with
    | true => rfl
    | false =>
      obtain ⟨b, hb, hfalse⟩ := exists_of_allM_eq_false hy
      obtain ⟨a, ha, hab⟩ := hr b hb
      exact hab _ _ (allM_eq_true_iff.1 hx a ha) hfalse
  | false =>
    cases y with
    | false => rfl
    | true =>
      obtain ⟨a, ha, hfalse⟩ := exists_of_allM_eq_false hx
      obtain ⟨b, hb, hab⟩ := hl a ha
      exact hab _ _ hfalse (allM_eq_true_iff.1 hy b hb)

theorem agree_anyM (hl : ∀ a ∈ l, ∃ b ∈ l', Agree (· = ·) (p a) (p' b))
    (hr : ∀ b ∈ l', ∃ a ∈ l, Agree (· = ·) (p a) (p' b)) : Agree (· = ·) (l.anyM p) (l'.anyM p') := by
  intro x y hx hy
  cases x with
  | true =>
    cases y with
    | true => rfl
    | false =>
      obtain ⟨a, ha, htrue⟩ := exists_of_anyM_eq_true hx
      obtain ⟨b, hb, hab⟩ := hl a ha
      exact hab _ _ htrue (anyM_eq_false_iff.1 hy b hb)
  | false =>
    cases y with
    | false => rfl
    | true =>
      obtain ⟨b, hb, htrue⟩ := exists_of_anyM_eq_true hy
      obtain ⟨a, ha, hab⟩ := hr b hb
      exact hab _ _ (anyM_eq_false_iff.1 hx a ha) htrue

theorem findM?_isSome_eq (p : α → Result Bool) (l : List α) :
    (l.findM? p >>= fun found => .ok found.isSome) = l.anyM p := by
  induction l with
  | nil => rfl
  | cons a l ih =>
    rw [List.findM?, anyM_cons_eq, bind_assoc]
    congr 1
    funext b
    cases b with
    | true => rfl
    | false => exact ih

end Loops

end Agree

/-! ## Answers on both sides or on neither -/

/-- Both give an answer, and the answers are related, or neither does. -/
inductive Together (R : α → β → Prop) : Result α → Result β → Prop
  | ok {a : α} {b : β} (h : R a b) : Together R (.ok a) (.ok b)
  | error (fault fault' : Fault) : Together R (.error fault) (.error fault')

section Together

variable {γ δ : Type} {R : α → β → Prop} {S : γ → δ → Prop}

theorem Together.exists_iff {x : Result α} {y : Result β} (h : Together R x y) :
    (∃ a, x = .ok a) ↔ ∃ b, y = .ok b := by
  cases h with
  | ok h => exact ⟨fun _ => ⟨_, rfl⟩, fun _ => ⟨_, rfl⟩⟩
  | error fault fault' => exact ⟨fun hx => (by cases hx.choose_spec), fun hy => (by cases hy.choose_spec)⟩

theorem Together.agree {x : Result α} {y : Result β} (h : Together R x y) : Agree R x y := by
  cases h with
  | ok h => exact agree_ok h
  | error fault fault' => exact agree_error fault fault'

theorem Together.bind {x : Result α} {y : Result β} {f : α → Result γ} {g : β → Result δ} (h : Together R x y)
    (hfg : ∀ a b, x = .ok a → R a b → Together S (f a) (g b)) : Together S (x >>= f) (y >>= g) := by
  cases h with
  | ok h => exact hfg _ _ rfl h
  | error fault fault' => exact .error fault fault'

theorem Together.map {x : Result α} {y : Result β} {f : α → γ} {g : β → δ} (h : Together R x y)
    (hfg : ∀ a b, R a b → S (f a) (g b)) : Together S (f <$> x) (g <$> y) := by
  cases h with
  | ok h => exact .ok (hfg _ _ h)
  | error fault fault' => exact .error fault fault'

theorem Together.imp {S : α → β → Prop} {x : Result α} {y : Result β} (h : Together R x y)
    (hRS : ∀ a b, x = .ok a → R a b → S a b) : Together S x y := by
  cases h with
  | ok h => exact .ok (hRS _ _ rfl h)
  | error fault fault' => exact .error fault fault'

end Together

/-! ## Relations that computations keep -/

/-- For every relation between answers one between computations, which answers, faults and sequences keep. -/
structure Relator where
  Holds : {α β : Type} → (α → β → Prop) → Result α → Result β → Prop
  ok : ∀ {α β : Type} {R : α → β → Prop} {a : α} {b : β}, R a b → Holds R (.ok a) (.ok b)
  error : ∀ {α β : Type} {R : α → β → Prop} (fault : Fault), Holds R (.error fault) (.error fault)
  bind : ∀ {α β γ δ : Type} {R : α → β → Prop} {S : γ → δ → Prop} {x : Result α} {y : Result β} {f : α → Result γ}
    {g : β → Result δ}, Holds R x y → (∀ a b, x = .ok a → R a b → Holds S (f a) (g b)) → Holds S (x >>= f) (y >>= g)

def Relator.agree : Relator where
  Holds := Agree
  ok := agree_ok
  error fault := agree_error fault fault
  bind h hfg := by
    intro c d hc hd
    obtain ⟨a, ha, hf⟩ := bind_eq_ok_iff.1 hc
    obtain ⟨b, hb, hg⟩ := bind_eq_ok_iff.1 hd
    exact hfg a b ha (h a b ha hb) c d hf hg

def Relator.together : Relator where
  Holds := Together
  ok := .ok
  error fault := .error fault fault
  bind := Together.bind

section Relator

variable (L : Relator) {γ δ : Type} {S : γ → δ → Prop}

theorem Relator.refl (x : Result α) : L.Holds (· = ·) x x := by
  cases x with
  | error fault => exact L.error fault
  | ok a => exact L.ok rfl

theorem Relator.findSomeM?_run {σ : Type} {f : α → StateT σ Result (Option γ)} {g : α → StateT σ Result (Option δ)}
    {l : List α}
    (h : ∀ a ∈ l, ∀ n, L.Holds (fun x y => Option.Rel S x.1 y.1 ∧ x.2 = y.2) ((f a).run n) ((g a).run n)) (n : σ) :
    L.Holds (fun x y => Option.Rel S x.1 y.1 ∧ x.2 = y.2) ((l.findSomeM? f).run n) ((l.findSomeM? g).run n) := by
  induction l generalizing n with
  | nil => exact L.ok ⟨.none, rfl⟩
  | cons a l ih =>
    rw [findSomeM?_cons_run, findSomeM?_cons_run]
    refine L.bind (h a List.mem_cons_self n) ?_
    rintro ⟨x, m⟩ ⟨y, m'⟩ _ ⟨hrel, heq⟩
    cases heq
    cases hrel with
    | none => exact ih (fun x hx => h x (List.mem_cons_of_mem a hx)) m
    | some hS => exact L.ok ⟨.some hS, rfl⟩

end Relator

/-! ## One and the same result -/

/-- Both have the same answer, with the property `P`, or the same fault. -/
def Coincide (P : α → Prop) (x y : Result α) : Prop := x = y ∧ ∀ a, x = .ok a → P a

section Coincide

variable {P : α → Prop} {Q : β → Prop}

theorem coincide_ok {a : α} (h : P a) : Coincide P (.ok a) (.ok a) := by
  refine ⟨rfl, fun a' ha => ?_⟩
  cases ha
  exact h

theorem coincide_error (fault : Fault) : Coincide P (.error fault) (.error fault) :=
  ⟨rfl, fun _ ha => by cases ha⟩

theorem Coincide.bind {x y : Result α} {f g : α → Result β} (h : Coincide P x y)
    (hfg : ∀ a, P a → Coincide Q (f a) (g a)) : Coincide Q (x >>= f) (y >>= g) := by
  obtain ⟨rfl, hP⟩ := h
  cases x with
  | error fault => exact coincide_error fault
  | ok a => exact hfg a (hP a rfl)

theorem Coincide.bind_eq {x y : Result α} {f g : α → Result β} (h : Coincide P x y)
    (hfg : ∀ a, P a → f a = g a) : (x >>= f) = (y >>= g) := by
  obtain ⟨rfl, hP⟩ := h
  cases x with
  | error fault => rfl
  | ok a => exact hfg a (hP a rfl)

theorem Coincide.map {x y : Result α} {f : α → β} (h : Coincide P x y) (hf : ∀ a, P a → Q (f a)) :
    Coincide Q (f <$> x) (f <$> y) := by
  obtain ⟨rfl, hP⟩ := h
  cases x with
  | error fault => exact coincide_error fault
  | ok a => exact coincide_ok (hf a (hP a rfl))

section Loops

variable {p p' : α → Result Bool} {l : List α}

theorem allM_congr (h : ∀ a ∈ l, p a = p' a) : l.allM p = l.allM p' := by
  induction l with
  | nil => rfl
  | cons a l ih =>
    obtain ⟨ha, hl⟩ := List.forall_mem_cons.1 h
    rw [allM_cons_eq, allM_cons_eq, ha, ih hl]

theorem anyM_congr (h : ∀ a ∈ l, p a = p' a) : l.anyM p = l.anyM p' := by
  induction l with
  | nil => rfl
  | cons a l ih =>
    obtain ⟨ha, hl⟩ := List.forall_mem_cons.1 h
    rw [anyM_cons_eq, anyM_cons_eq, ha, ih hl]

theorem findM?_congr (h : ∀ a ∈ l, p a = p' a) : l.findM? p = l.findM? p' := by
  induction l with
  | nil => rfl
  | cons a l ih =>
    obtain ⟨ha, hl⟩ := List.forall_mem_cons.1 h
    rw [List.findM?, List.findM?, ha, ih hl]

end Loops

theorem coincide_findSomeM?_run {σ : Type} {f g : α → StateT σ Result (Option β)} {l : List α}
    {P : Option β × σ → Prop} (hnone : ∀ n, P (none, n))
    (h : ∀ a ∈ l, ∀ n, Coincide P ((f a).run n) ((g a).run n)) (n : σ) :
    Coincide P ((l.findSomeM? f).run n) ((l.findSomeM? g).run n) := by
  induction l generalizing n with
  | nil => exact coincide_ok (hnone n)
  | cons a l ih =>
    rw [findSomeM?_cons_run, findSomeM?_cons_run]
    refine (h a List.mem_cons_self n).bind fun found hfound => ?_
    obtain ⟨found, m⟩ := found
    cases found with
    | some b => exact coincide_ok hfound
    | none => exact ih (fun x hx => h x (List.mem_cons_of_mem a hx)) m

end Coincide

end Generics.Result
