import Generics.Assignability.Rules
import Generics.Proofs.Views

/-! # Assignability as a relation

`Store.Covers t u` says that a value of the nominal type `u` may stand where `t` is required. It is what the rules
say, with the views of a type in place of the walk for one of them; what is left out is that a wildcard without
upper bounds may get those of its parameter. `Store.Takes R` is one level, where `R` compares the bounds of
wildcards, and `Store.CoversIn n` has `n` levels. The relation is its own level (`covers_iff_takes`), depends on its
two types only up to `==`, and grows with the levels. -/

namespace Generics.Store
set_option autoImplicit false

variable {s : Store} {R R' : Descriptor → Descriptor → Prop}

/-! ## The relation -/

/-- A type lies within bounds. -/
def Within (s : Store) (R : Descriptor → Descriptor → Prop) (lower upper : List Descriptor) : Descriptor → Prop
  | .wildcard lower' upper' =>
    (∀ u ∈ upper, ∃ u' ∈ s.impliedUpper upper', R u u') ∧ ∀ l ∈ lower, ∃ l' ∈ lower', R l' l
  | d => (∀ u ∈ upper, R u d) ∧ ∀ l ∈ lower, R d l

/-- An argument is the required one, or lies within the required wildcard. -/
def Fits (s : Store) (R : Descriptor → Descriptor → Prop) (required actual : Descriptor) : Prop :=
  required == actual ∨ ∃ lower upper, required = .wildcard lower upper ∧ s.Within R lower upper actual

/-- A value of the second type may stand where the first is required. -/
inductive Takes (s : Store) (R : Descriptor → Descriptor → Prop) : Descriptor → Descriptor → Prop
  | same {t u : Descriptor} (h : t == u) : Takes s R t u
  | bare {c b : ClassId} {u : Descriptor} (hu : u.raw? = some b) (hb : s.Below b c) : Takes s R (.bare c) u
  | applied {owner owner' : Option Descriptor} {c : ClassId} {args args' : List Descriptor} {u : Descriptor}
      (hr : s.Reaches u (.applied owner' c args'))
      (ho : ∀ o o', owner = some o → owner' = some o' → Takes s R o o')
      (ha : List.Forall₂ (s.Fits R) args args') : Takes s R (.applied owner c args) u

def CoversIn (s : Store) : Nat → Descriptor → Descriptor → Prop
  | 0 => fun _ _ => False
  | n + 1 => s.Takes (s.CoversIn n)

/-- The relation with as many levels as it takes. -/
def Covers (s : Store) (t u : Descriptor) : Prop := ∃ n, s.CoversIn n t u

/-! ## More levels -/

theorem Within.mono (h : ∀ t u, R t u → R' t u) {lower upper : List Descriptor} {d : Descriptor}
    (hd : s.Within R lower upper d) : s.Within R' lower upper d := by
  cases d with
  | wildcard lower' upper' =>
    refine ⟨fun u hu => ?_, fun l hl => ?_⟩
    · obtain ⟨u', hu', hR⟩ := hd.1 u hu
      exact ⟨u', hu', h u u' hR⟩
    · obtain ⟨l', hl', hR⟩ := hd.2 l hl
      exact ⟨l', hl', h l' l hR⟩
  | bare c => exact ⟨fun u hu => h _ _ (hd.1 u hu), fun l hl => h _ _ (hd.2 l hl)⟩
  | applied owner c args => exact ⟨fun u hu => h _ _ (hd.1 u hu), fun l hl => h _ _ (hd.2 l hl)⟩
  | var v => exact ⟨fun u hu => h _ _ (hd.1 u hu), fun l hl => h _ _ (hd.2 l hl)⟩

theorem Fits.mono (h : ∀ t u, R t u → R' t u) {required actual : Descriptor} (hf : s.Fits R required actual) :
    s.Fits R' required actual := by
  rcases hf with hf | ⟨lower, upper, rfl, hw⟩
  · exact .inl hf
  · exact .inr ⟨lower, upper, rfl, hw.mono h⟩

theorem Takes.mono (h : ∀ t u, R t u → R' t u) {t u : Descriptor} (ht : s.Takes R t u) : s.Takes R' t u := by
  induction ht with
  | same heq => exact .same heq
  | bare hu hb => exact .bare hu hb
  | applied hr _ ha ih => exact .applied hr ih (ha.imp fun _ _ hf => hf.mono h)

theorem CoversIn.succ {n : Nat} {t u : Descriptor} (h : s.CoversIn n t u) : s.CoversIn (n + 1) t u := by
  induction n generalizing t u with
  | zero => exact h.elim
  | succ n ih => exact Takes.mono (fun _ _ => ih) h

theorem CoversIn.mono {n m : Nat} {t u : Descriptor} (h : s.CoversIn n t u) (hle : n ≤ m) : s.CoversIn m t u := by
  induction hle with
  | refl => exact h
  | step _ ih => exact ih.succ

/-! ## As many levels as it takes -/

theorem exists_bound {α : Type} {P : Nat → α → Prop} (hmono : ∀ {n m x}, n ≤ m → P n x → P m x) {l : List α}
    (h : ∀ x ∈ l, ∃ n, P n x) : ∃ n, ∀ x ∈ l, P n x := by
  induction l with
  | nil => exact ⟨0, by simp⟩
  | cons a l ih =>
    obtain ⟨ha, hl⟩ := List.forall_mem_cons.1 h
    obtain ⟨n, hn⟩ := ha
    obtain ⟨m, hm⟩ := ih hl
    exact ⟨max n m, List.forall_mem_cons.2
      ⟨hmono (Nat.le_max_left n m) hn, fun x hx => hmono (Nat.le_max_right n m) (hm x hx)⟩⟩

theorem Within.exists_level {lower upper : List Descriptor} {d : Descriptor}
    (h : s.Within s.Covers lower upper d) : ∃ n, s.Within (s.CoversIn n) lower upper d := by
  have plain : (∀ u ∈ upper, s.Covers u d) ∧ (∀ l ∈ lower, s.Covers d l) →
      ∃ n, (∀ u ∈ upper, s.CoversIn n u d) ∧ ∀ l ∈ lower, s.CoversIn n d l := by
    rintro ⟨hu, hl⟩
    obtain ⟨n, hn⟩ := exists_bound (P := fun n u => s.CoversIn n u d) (fun hle h => h.mono hle) hu
    obtain ⟨m, hm⟩ := exists_bound (P := fun n l => s.CoversIn n d l) (fun hle h => h.mono hle) hl
    exact ⟨max n m, fun u hu => (hn u hu).mono (Nat.le_max_left n m),
      fun l hl => (hm l hl).mono (Nat.le_max_right n m)⟩
  cases d with
  | wildcard lower' upper' =>
    obtain ⟨hu, hl⟩ := h
    obtain ⟨n, hn⟩ := exists_bound (P := fun n u => ∃ u' ∈ s.impliedUpper upper', s.CoversIn n u u')
      (fun hle ⟨u', hu', h⟩ => ⟨u', hu', h.mono hle⟩) fun u hmem => by
        obtain ⟨u', hu', n, h⟩ := hu u hmem
        exact ⟨n, u', hu', h⟩
    obtain ⟨m, hm⟩ := exists_bound (P := fun n l => ∃ l' ∈ lower', s.CoversIn n l' l)
      (fun hle ⟨l', hl', h⟩ => ⟨l', hl', h.mono hle⟩) fun l hmem => by
        obtain ⟨l', hl', n, h⟩ := hl l hmem
        exact ⟨n, l', hl', h⟩
    refine ⟨max n m, fun u hu => ?_, fun l hl => ?_⟩
    · obtain ⟨u', hu', h⟩ := hn u hu
      exact ⟨u', hu', h.mono (Nat.le_max_left n m)⟩
    · obtain ⟨l', hl', h⟩ := hm l hl
      exact ⟨l', hl', h.mono (Nat.le_max_right n m)⟩
  | bare c => exact plain h
  | applied owner c args => exact plain h
  | var v => exact plain h

theorem Fits.exists_level {r a : Descriptor} (h : s.Fits s.Covers r a) : ∃ n, s.Fits (s.CoversIn n) r a := by
  rcases h with heq | ⟨lower, upper, rfl, hw⟩
  · exact ⟨0, .inl heq⟩
  · obtain ⟨n, hn⟩ := hw.exists_level
    exact ⟨n, .inr ⟨lower, upper, rfl, hn⟩⟩

theorem forall₂_fits_exists_level {rs as : List Descriptor} (h : List.Forall₂ (s.Fits s.Covers) rs as) :
    ∃ n, List.Forall₂ (s.Fits (s.CoversIn n)) rs as := by
  induction h with
  | nil => exact ⟨0, .nil⟩
  | cons hra _ ih =>
    obtain ⟨n, hn⟩ := hra.exists_level
    obtain ⟨m, hm⟩ := ih
    exact ⟨max n m, .cons (hn.mono fun _ _ h => h.mono (Nat.le_max_left n m))
      (hm.imp fun _ _ hf => hf.mono fun _ _ h => h.mono (Nat.le_max_right n m))⟩

theorem Takes.exists_level {t u : Descriptor} (h : s.Takes s.Covers t u) : ∃ n, s.Takes (s.CoversIn n) t u := by
  induction h with
  | same heq => exact ⟨0, .same heq⟩
  | bare hu hb => exact ⟨0, .bare hu hb⟩
  | @applied owner owner' c args args' u hr _ ha ih =>
    obtain ⟨n, hn⟩ := forall₂_fits_exists_level ha
    have howner : ∃ m, ∀ o o', owner = some o → owner' = some o' → s.Takes (s.CoversIn m) o o' := by
      cases owner with
      | none => exact ⟨0, fun _ _ h => by cases h⟩
      | some o =>
        cases owner' with
        | none => exact ⟨0, fun _ _ _ h => by cases h⟩
        | some o' =>
          obtain ⟨m, hm⟩ := ih o o' rfl rfl
          exact ⟨m, fun _ _ h h' => by cases h; cases h'; exact hm⟩
    obtain ⟨m, hm⟩ := howner
    refine ⟨max n m, .applied hr (fun o o' ho ho' => ?_) ?_⟩
    · exact (hm o o' ho ho').mono fun _ _ h => h.mono (Nat.le_max_right n m)
    · exact hn.imp fun _ _ hf => hf.mono fun _ _ h => h.mono (Nat.le_max_left n m)

theorem covers_iff_takes {t u : Descriptor} : s.Covers t u ↔ s.Takes s.Covers t u := by
  constructor
  · rintro ⟨n, h⟩
    cases n with
    | zero => exact h.elim
    | succ n => exact Takes.mono (fun _ _ h => ⟨n, h⟩) h
  · intro h
    obtain ⟨n, hn⟩ := h.exists_level
    exact ⟨n + 1, hn⟩

/-! ## Types that are the same -/

/-- A relation that cannot tell apart what is the same. -/
def Respects (R : Descriptor → Descriptor → Prop) : Prop :=
  ∀ {t t' u u' : Descriptor}, (t == t') = true → (u == u') = true → R t u → R t' u'

theorem sameSets_impliedUpper {upper upper' : List Descriptor} (h : Descriptor.SameSets upper upper') :
    Descriptor.SameSets (s.impliedUpper upper) (s.impliedUpper upper') := by
  unfold impliedUpper
  by_cases hu : upper = []
  · simp only [hu, h.eq_nil_iff.1 hu, List.isEmpty_nil, if_true]
    exact .refl _
  · have hu' : upper' ≠ [] := fun hnil => hu (h.eq_nil_iff.2 hnil)
    simp only [List.isEmpty_iff, hu, hu', if_false]
    exact h

theorem Within.congr (hR : Respects R) {lower lower' upper upper' : List Descriptor} {d d' : Descriptor}
    (hl : Descriptor.SameSets lower lower') (hu : Descriptor.SameSets upper upper') (hd : d == d')
    (h : s.Within R lower upper d) : s.Within R lower' upper' d' := by
  have plain : (∀ u ∈ upper, R u d) ∧ (∀ l ∈ lower, R d l) →
      (∀ u ∈ upper', R u d') ∧ ∀ l ∈ lower', R d' l := by
    rintro ⟨hupper, hlower⟩
    refine ⟨fun u' hu' => ?_, fun l' hl' => ?_⟩
    · obtain ⟨u, humem, heq⟩ := hu.2 u' hu'
      exact hR heq hd (hupper u humem)
    · obtain ⟨l, hlmem, heq⟩ := hl.2 l' hl'
      exact hR hd heq (hlower l hlmem)
  cases d with
  | wildcard lower₁ upper₁ =>
    obtain ⟨lower₂, upper₂, rfl, hl₂, hu₂⟩ := Descriptor.wildcard_beq_iff.1 hd
    refine ⟨fun u' hu' => ?_, fun l' hl' => ?_⟩
    · obtain ⟨u, humem, heq⟩ := hu.2 u' hu'
      obtain ⟨x, hx, hux⟩ := h.1 u humem
      obtain ⟨y, hy, hxy⟩ := (sameSets_impliedUpper (s := s) hu₂).1 x hx
      exact ⟨y, hy, hR heq hxy hux⟩
    · obtain ⟨l, hlmem, heq⟩ := hl.2 l' hl'
      obtain ⟨x, hx, hxl⟩ := h.2 l hlmem
      obtain ⟨y, hy, hxy⟩ := hl₂.1 x hx
      exact ⟨y, hy, hR hxy heq hxl⟩
  | bare c =>
    rw [Descriptor.bare_beq_iff.1 hd] at plain ⊢
    exact plain h
  | applied owner c args =>
    obtain ⟨_, _, rfl, _⟩ := Descriptor.applied_beq_iff.1 hd
    exact plain h
  | var v =>
    rw [Descriptor.var_beq_iff.1 hd] at plain ⊢
    exact plain h

theorem Fits.congr (hR : Respects R) {r r' a a' : Descriptor} (hr : r == r') (ha : a == a')
    (h : s.Fits R r a) : s.Fits R r' a' := by
  rcases h with h | ⟨lower, upper, rfl, hw⟩
  · exact .inl (BEq.trans (BEq.symm hr) (BEq.trans h ha))
  · obtain ⟨lower', upper', rfl, hl, hu⟩ := Descriptor.wildcard_beq_iff.1 hr
    exact .inr ⟨lower', upper', rfl, hw.congr hR hl hu ha⟩

theorem forall₂_congr {P : Descriptor → Descriptor → Prop} (hP : Respects P)
    {ds ds' es es' : List Descriptor} (h : List.Forall₂ P ds es) (hd : List.Forall₂ (· == ·) ds ds')
    (he : List.Forall₂ (· == ·) es es') : List.Forall₂ P ds' es' := by
  induction h generalizing ds' es' with
  | nil =>
    cases hd
    cases he
    exact .nil
  | cons hde _ ih =>
    cases hd with
    | cons hd hds =>
      cases he with
      | cons he hes => exact .cons (hP hd he hde) (ih hds hes)

theorem Takes.congr (hR : Respects R) {t t' u u' : Descriptor} (ht : t == t') (hu : u == u')
    (h : s.Takes R t u) : s.Takes R t' u' := by
  induction h generalizing t' u' with
  | same heq => exact .same (BEq.trans (BEq.symm ht) (BEq.trans heq hu))
  | bare hraw hb =>
    rw [Descriptor.bare_beq_iff.1 ht]
    exact .bare (by rw [← Descriptor.raw?_eq_of_beq hu]; exact hraw) hb
  | applied hr _ ha ih =>
    obtain ⟨owner₁, args₁, rfl, howner, hargs⟩ := Descriptor.applied_beq_iff.1 ht
    obtain ⟨e, hreach, he⟩ := hr.congr hu
    obtain ⟨owner₂, args₂, rfl, howner', hargs'⟩ := Descriptor.applied_beq_iff.1 he
    refine .applied hreach ?_ (forall₂_congr (fun hr ha => Fits.congr hR hr ha) ha hargs hargs')
    intro o o' ho ho'
    subst ho ho'
    cases howner with
    | some h₁ =>
      cases howner' with
      | some h₂ => exact ih _ _ rfl rfl h₁ h₂

theorem respects_coversIn (n : Nat) : Respects (s.CoversIn n) := by
  induction n with
  | zero => exact fun _ _ h => h
  | succ n ih => exact fun ht hu h => Takes.congr ih ht hu h

theorem respects_covers : Respects s.Covers := by
  rintro t t' u u' ht hu ⟨n, h⟩
  exact ⟨n, respects_coversIn n ht hu h⟩

end Generics.Store
