import Mathlib.Data.Fintype.Card
import Mathlib.Data.Set.Finite.List
import Generics.Key.Specificity
import Generics.Proofs.Casts

/-! # When most specific comes first

Picking one key after the other puts none after one that is less specific, exactly if being more specific has
no cycle among the keys (`linearize_sorted_iff`). For regular keys free of capture there is none, since there
answers compose. In general there are cycles: `triples_cycle` has three keys of one class, each more specific
than the next. -/

namespace Generics.Key
set_option autoImplicit false

open Result

variable {s : Store}

/-! ## Cycles -/

/-- One key is found to be strictly more specific than another. -/
def Finer (s : Store) (a b : Key) : Prop := a.moreSpecific s b = .ok true

/-- One key is more specific than another, and both are among those given. -/
def FinerIn (s : Store) (keys : List Key) (a b : Key) : Prop := a ∈ keys ∧ b ∈ keys ∧ Finer s a b

/-- Being more specific does not lead from a key back to itself. -/
def AcyclicOn (s : Store) (keys : List Key) : Prop := ∀ k, ¬ Relation.TransGen (FinerIn s keys) k k

/-- None of the keys is more specific. -/
def MinimalIn (s : Store) (keys : List Key) (k : Key) : Prop := ∀ other ∈ keys, ¬ Finer s other k

theorem not_finer_self (k : Key) : ¬ Finer s k k := by
  have heq : (k == k) = true := by
    rw [beq_eq]
    exact BEq.rfl
  intro h
  rw [Finer, moreSpecific, if_pos heq] at h
  cases h

theorem AcyclicOn.subset {keys keys' : List Key} (h : AcyclicOn s keys) (hsub : ∀ k ∈ keys', k ∈ keys) :
    AcyclicOn s keys' := by
  intro k hcycle
  have hincl : ∀ a b, FinerIn s keys' a b → FinerIn s keys a b := by
    rintro a b ⟨ha, hb, hfiner⟩
    exact ⟨hsub a ha, hsub b hb, hfiner⟩
  exact h k (Relation.TransGen.mono hincl _ _ hcycle)

theorem AcyclicOn.exists_minimal {keys : List Key} (h : AcyclicOn s keys) (hne : keys ≠ []) :
    ∃ k ∈ keys, MinimalIn s keys k := by
  obtain ⟨first, hfirst⟩ := List.exists_mem_of_ne_nil keys hne
  let r : {k // k ∈ keys} → {k // k ∈ keys} → Prop := fun a b => Relation.TransGen (FinerIn s keys) a.1 b.1
  have hfinite : Finite {k // k ∈ keys} := (List.finite_toSet keys).to_subtype
  have htrans : IsTrans {k // k ∈ keys} r := ⟨fun _ _ _ hab hbc => hab.trans hbc⟩
  have hirrefl : Std.Irrefl r := ⟨fun a => h a.1⟩
  have hwf : WellFounded r := Finite.wellFounded_of_trans_of_irrefl r
  obtain ⟨k, _, hmin⟩ := hwf.has_min Set.univ ⟨⟨first, hfirst⟩, trivial⟩
  refine ⟨k.1, k.2, fun other hother hfiner => ?_⟩
  exact hmin ⟨other, hother⟩ trivial (.single ⟨hother, k.2, hfiner⟩)

theorem acyclicOn_of_pairwise {keys : List Key} (h : keys.Pairwise fun a b => ¬ Finer s b a) :
    AcyclicOn s keys := by
  induction keys with
  | nil =>
    intro k hcycle
    obtain ⟨_, ⟨hmem, _⟩, _⟩ := Relation.TransGen.head'_iff.1 hcycle
    simp at hmem
  | cons first keys ih =>
    obtain ⟨hfirst, hrest⟩ := List.pairwise_cons.1 h
    have hmin : MinimalIn s (first :: keys) first :=
      List.forall_mem_cons.2 ⟨not_finer_self first, hfirst⟩
    -- nothing leads to the first key, so a cycle is one among the others
    have hin : ∀ {a b}, FinerIn s (first :: keys) a b → b ∈ keys := by
      rintro a b ⟨ha, hb, hfiner⟩
      rcases List.mem_cons.1 hb with rfl | hb
      · exact absurd hfiner (hmin a ha)
      · exact hb
    have hpath : ∀ {a b}, Relation.TransGen (FinerIn s (first :: keys)) a b →
        b ∈ keys ∧ (a ∈ keys → Relation.TransGen (FinerIn s keys) a b) := by
      intro a b hab
      induction hab with
      | single hstep => exact ⟨hin hstep, fun ha => .single ⟨ha, hin hstep, hstep.2.2⟩⟩
      | tail _ hstep ih' =>
        obtain ⟨hmid, hlead⟩ := ih'
        exact ⟨hin hstep, fun ha => (hlead ha).tail ⟨hmid, hin hstep, hstep.2.2⟩⟩
    intro k hcycle
    obtain ⟨hk, hlead⟩ := hpath hcycle
    exact ih hrest k (hlead hk)

/-! ## Picking -/

theorem decides_isMinimal (keys : List Key) (k : Key) : Decides (MinimalIn s keys k) (isMinimal s keys k) := by
  have hany : Decides (∃ other ∈ keys, Finer s other k) (keys.anyM fun other => other.moreSpecific s k) := by
    refine decides_anyM fun other _ b hb => ?_
    rw [Finer, hb]
    cases b <;> simp
  refine hany.not.iff ?_
  simp [MinimalIn]

theorem pickMinimal?_eq_ok {keys candidates : List Key} {pick : Option (Key × List Key)}
    (h : pickMinimal? s keys candidates = .ok pick) :
    (∃ before k after, candidates = before ++ k :: after ∧ pick = some (k, before ++ after) ∧
        MinimalIn s keys k) ∨
      (pick = none ∧ ∀ k ∈ candidates, ¬ MinimalIn s keys k) := by
  induction candidates generalizing pick with
  | nil =>
    cases h
    exact .inr ⟨rfl, by simp⟩
  | cons k rest ih =>
    rw [pickMinimal?, bind_eq_ok_iff] at h
    obtain ⟨minimal, hminimal, h⟩ := h
    have hdec := decides_isMinimal keys k minimal hminimal
    cases minimal with
    | true =>
      cases h
      exact .inl ⟨[], k, rest, rfl, rfl, hdec.1 rfl⟩
    | false =>
      have hnot : ¬ MinimalIn s keys k := fun hmin => by simpa using hdec.2 hmin
      obtain ⟨pick', hpick', h⟩ := bind_eq_ok_iff.1 h
      cases h
      rcases ih hpick' with ⟨before, best, after, rfl, rfl, hbest⟩ | ⟨rfl, hall⟩
      · exact .inl ⟨k :: before, best, after, rfl, rfl, hbest⟩
      · exact .inr ⟨rfl, List.forall_mem_cons.2 ⟨hnot, hall⟩⟩

/-- The key picked is minimal unless none is. -/
theorem pickFirst?_eq_ok {keys : List Key} {pick : Option (Key × List Key)} (h : pickFirst? s keys = .ok pick) :
    (keys = [] ∧ pick = none) ∨
      ∃ before k after, keys = before ++ k :: after ∧ pick = some (k, before ++ after) ∧
        (MinimalIn s keys k ∨ ∀ other ∈ keys, ¬ MinimalIn s keys other) := by
  rw [pickFirst?, bind_eq_ok_iff] at h
  obtain ⟨found, hfound, h⟩ := h
  rcases pickMinimal?_eq_ok hfound with ⟨before, k, after, heq, rfl, hmin⟩ | ⟨rfl, hnone⟩
  · cases h
    exact .inr ⟨before, k, after, heq, rfl, .inl hmin⟩
  · cases h
    cases keys with
    | nil => exact .inl ⟨rfl, rfl⟩
    | cons k rest => exact .inr ⟨[], k, rest, rfl, rfl, .inr hnone⟩

theorem perm_insertBy (order : Key → Key → Ordering) (k : Key) (keys : List Key) :
    (insertBy order k keys).Perm (k :: keys) := by
  induction keys with
  | nil => exact .refl _
  | cons l ls ih =>
    rw [insertBy]
    split
    · exact (ih.cons l).trans (.swap k l ls)
    · exact .refl _

theorem perm_sortByText (hasher : Hasher) (keys : List Key) : (sortByText hasher keys).Perm keys := by
  induction keys with
  | nil => exact .refl _
  | cons k keys ih => exact (perm_insertBy _ k _).trans (ih.cons k)

/-! ## One key after the other -/

theorem perm_linearize {count : Nat} {keys out : List Key} (hl : keys.length = count)
    (h : linearize s count keys = .ok out) : out.Perm keys := by
  induction count generalizing keys out with
  | zero =>
    cases h
    rw [List.length_eq_zero_iff.1 hl]
  | succ count ih =>
    rw [linearize, bind_eq_ok_iff] at h
    obtain ⟨pick, hpick, h⟩ := h
    rcases pickFirst?_eq_ok hpick with ⟨rfl, _⟩ | ⟨before, k, after, rfl, rfl, _⟩
    · simp at hl
    · obtain ⟨rest, hrest, h⟩ := bind_eq_ok_iff.1 h
      cases h
      have hlen : (before ++ after).length = count := by
        simp only [List.length_append, List.length_cons] at hl ⊢
        omega
      exact ((ih hlen hrest).cons k).trans List.perm_middle.symm

/-- No key comes after one that is less specific, exactly if there is no cycle. -/
theorem linearize_sorted_iff {count : Nat} {keys out : List Key} (hl : keys.length = count)
    (h : linearize s count keys = .ok out) :
    (out.Pairwise fun earlier later => ¬ Finer s later earlier) ↔ AcyclicOn s keys := by
  have hperm := perm_linearize hl h
  refine ⟨fun hsorted => (acyclicOn_of_pairwise hsorted).subset fun k hk => hperm.mem_iff.2 hk, fun hacyclic => ?_⟩
  clear hperm
  induction count generalizing keys out with
  | zero =>
    cases h
    exact .nil
  | succ count ih =>
    rw [linearize, bind_eq_ok_iff] at h
    obtain ⟨pick, hpick, h⟩ := h
    rcases pickFirst?_eq_ok hpick with ⟨rfl, _⟩ | ⟨before, k, after, rfl, rfl, hmin⟩
    · simp at hl
    · obtain ⟨rest, hrest, h⟩ := bind_eq_ok_iff.1 h
      cases h
      have hlen : (before ++ after).length = count := by
        simp only [List.length_append, List.length_cons] at hl ⊢
        omega
      have hsub : ∀ x ∈ before ++ after, x ∈ before ++ k :: after := fun x hx => by
        rw [List.perm_middle.mem_iff]
        exact List.mem_cons_of_mem k hx
      have hk : MinimalIn s (before ++ k :: after) k := by
        rcases hmin with hk | hnone
        · exact hk
        · obtain ⟨m, hm, hmmin⟩ := hacyclic.exists_minimal (by simp)
          exact absurd hmmin (hnone m hm)
      refine List.pairwise_cons.2 ⟨fun x hx => ?_, ih hlen hrest (hacyclic.subset hsub)⟩
      exact hk x (hsub x ((perm_linearize hlen hrest).mem_iff.1 hx))

/-! ## Regular keys -/

theorem moreSpecific_eq_true {a b : Key} (h : Finer s a b) :
    b.accepts s a = .ok true ∧ a.accepts s b = .ok false := by
  rw [Finer, moreSpecific] at h
  split at h
  · cases h
  · obtain ⟨below, hbelow, h⟩ := bind_eq_ok_iff.1 h
    cases below with
    | false => cases h
    | true =>
      obtain ⟨above, habove, h⟩ := bind_eq_ok_iff.1 h
      cases above with
      | false => exact ⟨hbelow, habove⟩
      | true => cases h

theorem acyclicOn_of_regular (hs : s.Coherent) {keys : List Key}
    (hkeys : ∀ k ∈ keys, k.RegularIn s ∧ s.CaptureFree k.descriptor) : AcyclicOn s keys := by
  -- along a path of ever less specific keys each one covers the first
  have hpath : ∀ {a b}, a ∈ keys → Relation.ReflTransGen (FinerIn s keys) a b →
      b ∈ keys ∧ s.Covers b.descriptor a.descriptor := by
    intro a b ha hab
    induction hab with
    | refl => exact ⟨ha, Store.covers_of_beq BEq.rfl⟩
    | @tail b c _ hstep ih =>
      obtain ⟨hb, hcovers⟩ := ih
      obtain ⟨_, hc, hfiner⟩ := hstep
      have haccepts := (moreSpecific_eq_true hfiner).1
      have hcb := (decides_accepts hs (hkeys c hc).1 (hkeys b hb).1 true haccepts).1 rfl
      exact ⟨hc, hcb.trans hs (hkeys c hc).1.clean (hkeys b hb).1.clean (hkeys b hb).2 (hkeys a ha).1.clean hcovers⟩
  intro k hcycle
  obtain ⟨x, ⟨hk, hx, hfiner⟩, hback⟩ := Relation.TransGen.head'_iff.1 hcycle
  have hrefused := (moreSpecific_eq_true hfiner).2
  have hcovers := (hpath hx hback).2
  cases (decides_accepts hs (hkeys k hk).1 (hkeys x hx).1 false hrefused).2 hcovers

/-- Sorting puts no key after a less specific one exactly if there is no cycle, and the most specific key is minimal
exactly if one is. Regular keys free of capture have no cycle. -/
theorem sort_and_mostSpecific_right_iff (hasher : Hasher) (s : Store) (keys : List Key) :
    (∀ out, sort hasher s keys = .ok out →
      ((out.Pairwise fun earlier later => ¬ Finer s later earlier) ↔ AcyclicOn s keys)) ∧
    (∀ k, mostSpecific? hasher s keys = .ok (some k) → (MinimalIn s keys k ↔ ∃ m ∈ keys, MinimalIn s keys m)) ∧
    (s.Coherent → (∀ k ∈ keys, k.RegularIn s ∧ s.CaptureFree k.descriptor) →
      (∀ out, sort hasher s keys = .ok out → out.Pairwise fun earlier later => ¬ Finer s later earlier) ∧
      ∀ k, mostSpecific? hasher s keys = .ok (some k) → MinimalIn s keys k) := by
  have hmem : ∀ k, k ∈ sortByText hasher keys ↔ k ∈ keys := fun k => (perm_sortByText hasher keys).mem_iff
  have hsort : ∀ out, sort hasher s keys = .ok out →
      ((out.Pairwise fun earlier later => ¬ Finer s later earlier) ↔ AcyclicOn s keys) := by
    intro out h
    rw [linearize_sorted_iff (perm_sortByText hasher keys).length_eq h]
    exact ⟨fun h => h.subset fun k hk => (hmem k).2 hk, fun h => h.subset fun k hk => (hmem k).1 hk⟩
  have hminimal : ∀ k, MinimalIn s (sortByText hasher keys) k ↔ MinimalIn s keys k := by
    intro k
    exact ⟨fun h other ho => h other ((hmem other).2 ho), fun h other ho => h other ((hmem other).1 ho)⟩
  have hmost : ∀ k, mostSpecific? hasher s keys = .ok (some k) →
      (MinimalIn s keys k ↔ ∃ m ∈ keys, MinimalIn s keys m) := by
    intro k h
    rw [mostSpecific?, bind_eq_ok_iff] at h
    obtain ⟨pick, hpick, h⟩ := h
    rcases pickFirst?_eq_ok hpick with ⟨_, rfl⟩ | ⟨before, k', after, heq, rfl, hmin⟩
    · cases h
    · cases h
      have hk : k' ∈ keys := (hmem k').1 (by rw [heq]; simp)
      refine ⟨fun h => ⟨k', hk, h⟩, fun ⟨m, hm, hmmin⟩ => ?_⟩
      rcases hmin with hmin | hnone
      · exact (hminimal k').1 hmin
      · exact absurd ((hminimal m).2 hmmin) (hnone m ((hmem m).2 hm))
  refine ⟨hsort, hmost, fun hs hkeys => ?_⟩
  have hacyclic := acyclicOn_of_regular hs hkeys
  refine ⟨fun out h => (hsort out h).2 hacyclic, fun k h => (hmost k h).2 ?_⟩
  refine hacyclic.exists_minimal ?_
  rintro rfl
  cases h

/-! ## A cycle -/

/-- A class with three parameters, all of them bounded. -/
def triples : Store := .built
  [.register ⟨.ordinary, "Object", [], [], none⟩,
    .register ⟨.ordinary, "Number", [], [.bare ⟨1⟩], none⟩,
    .register ⟨.ordinary, "Triple", [⟨"T", [.bare ⟨2⟩]⟩, ⟨"U", [.bare ⟨2⟩]⟩, ⟨"V", [.bare ⟨2⟩]⟩], [.bare ⟨1⟩], none⟩,
    .setRoot ⟨1⟩]

def tripleKey (args : List Descriptor) : Key := ⟨.generic ⟨3⟩ args, ⟨3⟩, triples.text (.generic ⟨3⟩ args), false⟩

/-- `Triple<?, ? extends Number, ? extends Object>`. -/
def cycleOne : Key := tripleKey [.unbounded, .extending (.bare ⟨2⟩), .extending (.bare ⟨1⟩)]

/-- `Triple<? extends Number, ? extends Object, ?>`. -/
def cycleTwo : Key := tripleKey [.extending (.bare ⟨2⟩), .extending (.bare ⟨1⟩), .unbounded]

/-- `Triple<? extends Object, ?, ? extends Number>`. -/
def cycleThree : Key := tripleKey [.extending (.bare ⟨1⟩), .unbounded, .extending (.bare ⟨2⟩)]

/-- Each key is more specific than the next, so the last of the sorted keys is more specific than the first, which is
chosen as most specific though none is minimal. -/
theorem triples_cycle :
    triples.Coherent ∧ (∀ k ∈ [cycleOne, cycleTwo, cycleThree], Key.of triples k.descriptor = .ok k) ∧
      (∀ hasher, sort hasher triples [cycleOne, cycleTwo, cycleThree] = .ok [cycleTwo, cycleThree, cycleOne]) ∧
      (∀ hasher, mostSpecific? hasher triples [cycleOne, cycleTwo, cycleThree] = .ok (some cycleTwo)) ∧
      Finer triples cycleOne cycleTwo ∧ ¬ AcyclicOn triples [cycleOne, cycleTwo, cycleThree] ∧
      (¬ ∃ m ∈ [cycleOne, cycleTwo, cycleThree], MinimalIn triples [cycleOne, cycleTwo, cycleThree] m) ∧
      ∀ hasher out, sort hasher shapes [shapesKey ⟨5⟩ [.extending (.bare ⟨2⟩)], shapesKey ⟨7⟩ [.bare ⟨3⟩]] = .ok out →
        out.Pairwise fun earlier later => ¬ Finer shapes later earlier := by
  have hsort : ∀ hasher, sort hasher triples [cycleOne, cycleTwo, cycleThree] =
      .ok [cycleTwo, cycleThree, cycleOne] := fun _ => rfl
  have hmost : ∀ hasher, mostSpecific? hasher triples [cycleOne, cycleTwo, cycleThree] = .ok (some cycleTwo) :=
    fun _ => rfl
  have hfiner : Finer triples cycleOne cycleTwo := rfl
  have hthree := sort_and_mostSpecific_right_iff List.sum triples [cycleOne, cycleTwo, cycleThree]
  refine ⟨Store.coherent_of_isTree (by decide) rfl, ?_, hsort, hmost, hfiner, ?_, ?_, ?_⟩
  · simp only [List.forall_mem_cons]
    exact ⟨rfl, rfl, rfl, by simp⟩
  · intro hacyclic
    have hsorted := (hthree.1 _ (hsort _)).2 hacyclic
    exact (List.pairwise_cons.1 hsorted).1 cycleOne (by simp) hfiner
  · intro hex
    exact (hthree.2.1 _ (hmost _)).2 hex cycleOne (by simp) hfiner
  · intro hasher
    have htwo := sort_and_mostSpecific_right_iff hasher shapes
      [shapesKey ⟨5⟩ [.extending (.bare ⟨2⟩)], shapesKey ⟨7⟩ [.bare ⟨3⟩]]
    refine (htwo.2.2 shapes_coherent ?_).1
    simp only [List.forall_mem_cons]
    exact ⟨⟨.of_tested 5 rfl (by decide), Store.captureFree_of_tested 5 (by decide)⟩,
      ⟨.of_tested 5 rfl (by decide), Store.captureFree_of_tested 5 (by decide)⟩, by simp⟩

end Generics.Key
