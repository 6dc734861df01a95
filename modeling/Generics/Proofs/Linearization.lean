import Generics.Proofs.TextOrder

/-! # One key after the other, whatever order they came in

Keys that stand in text order are taken out one by one. The step is `comesFirst_of_pickFirst?`: the key taken out comes
first among those that are left, and these still stand in text order without it. So the same holds at every position of
what comes out (`comesFirst_of_linearize`). From lists that are equal key by key, equal keys are taken out
(`agree_linearize`), and text order leaves no choice but among equal keys if digests tell the others apart. So the order
in which the keys were given does not show in the end. -/

namespace Generics.Key
set_option autoImplicit false

open Result

variable {s : Store} {hasher : Hasher} {keys : List Key} {k : Key}

/-! ## The key that comes first -/

/-- Of the keys that none is more specific than, the first in text order; if there are none, the first of all. -/
def ComesFirst (hasher : Hasher) (s : Store) (keys : List Key) (k : Key) : Prop :=
  (MinimalIn s keys k ∧ ∀ m ∈ keys, MinimalIn s keys m → textOrder hasher k m ≠ .gt) ∨
    (∀ m ∈ keys, ¬ MinimalIn s keys m) ∧ ∀ m ∈ keys, textOrder hasher k m ≠ .gt

theorem textOrder_ne_gt_iff {a b : Key} :
    textOrder hasher a b ≠ .gt ↔ RankLE (a.rank hasher) (b.rank hasher) := by
  rw [textOrder_eq, RankLE, Ordering.isLE_iff_ne_gt]

theorem MinimalIn.congr {keys' : List Key} (h : ∀ m, m ∈ keys ↔ m ∈ keys') :
    MinimalIn s keys k ↔ MinimalIn s keys' k := by
  simp only [MinimalIn, h]

/-- It does not matter how the keys stand. -/
theorem ComesFirst.congr {keys' : List Key} (hfirst : ComesFirst hasher s keys k)
    (h : ∀ m, m ∈ keys ↔ m ∈ keys') : ComesFirst hasher s keys' k := by
  simp only [ComesFirst, MinimalIn.congr h, h] at hfirst
  exact hfirst

/-! ## Picking from keys in text order -/

theorem RankLE.refl (p : String × UInt32 × UInt64) : RankLE p p := by
  have hself : rankOrder p p = .eq := Std.ReflCmp.compare_self
  rw [RankLE, hself]
  rfl

theorem InTextOrder.rankLE_head {rest : List Key} (h : InTextOrder hasher (k :: rest)) {m : Key}
    (hm : m ∈ k :: rest) : RankLE (k.rank hasher) (m.rank hasher) := by
  rcases List.mem_cons.1 hm with rfl | hm
  · exact .refl _
  · exact (List.pairwise_cons.1 h).1 m hm

/-- The candidates are tried from the first on, so none that is minimal stands before the one picked. -/
theorem rankLE_of_pickMinimal? {candidates rest : List Key} (hsorted : InTextOrder hasher candidates)
    (h : pickMinimal? s keys candidates = .ok (some (k, rest))) :
    ∀ m ∈ candidates, MinimalIn s keys m → RankLE (k.rank hasher) (m.rank hasher) := by
  induction candidates generalizing rest with
  | nil => cases h
  | cons first candidates ih =>
    rw [pickMinimal?, bind_eq_ok_iff] at h
    obtain ⟨minimal, hminimal, h⟩ := h
    have hdec := decides_isMinimal keys first minimal hminimal
    intro m hm hmmin
    cases minimal with
    | true =>
      cases h
      exact hsorted.rankLE_head hm
    | false =>
      obtain ⟨pick, hpick, h⟩ := bind_eq_ok_iff.1 h
      obtain ⟨⟨best, others⟩, rfl, heq⟩ := Option.map_eq_some_iff.1 (Except.ok.inj h)
      cases heq
      have hne : m ≠ first := by
        rintro rfl
        cases hdec.2 hmmin
      exact ih (List.pairwise_cons.1 hsorted).2 hpick m (List.mem_of_ne_of_mem hne hm) hmmin

theorem comesFirst_of_pickFirst? {rest : List Key} (hsorted : InTextOrder hasher keys)
    (h : pickFirst? s keys = .ok (some (k, rest))) :
    ComesFirst hasher s keys k ∧ InTextOrder hasher rest ∧ keys.Perm (k :: rest) := by
  have hparts : InTextOrder hasher rest ∧ keys.Perm (k :: rest) := by
    rcases pickFirst?_eq_ok h with ⟨_, hnone⟩ | ⟨before, _, after, rfl, heq, _⟩
    · cases hnone
    · cases heq
      exact ⟨hsorted.sublist ((List.sublist_cons_self k after).append_left before), List.perm_middle⟩
  refine ⟨?_, hparts⟩
  rw [pickFirst?, bind_eq_ok_iff] at h
  obtain ⟨found, hfound, h⟩ := h
  rcases pickMinimal?_eq_ok hfound with ⟨before, best, after, heq, rfl, hmin⟩ | ⟨rfl, hnone⟩
  · cases h
    refine .inl ⟨hmin, fun m hm hmmin => textOrder_ne_gt_iff.2 ?_⟩
    exact rankLE_of_pickMinimal? hsorted hfound m hm hmmin
  · cases keys with
    | nil => cases h
    | cons first others =>
      cases h
      exact .inr ⟨hnone, fun m hm => textOrder_ne_gt_iff.2 (hsorted.rankLE_head hm)⟩

/-! ## One key after the other -/

/-- At every position stands the key that comes first among those from there on. -/
theorem comesFirst_of_linearize {count : Nat} {out before after : List Key} (hl : keys.length = count)
    (hsorted : InTextOrder hasher keys) (h : linearize s count keys = .ok out) (hout : out = before ++ k :: after) :
    ComesFirst hasher s (k :: after) k := by
  induction count generalizing keys out before with
  | zero =>
    cases h
    simp at hout
  | succ count ih =>
    rw [linearize, bind_eq_ok_iff] at h
    obtain ⟨pick, hpick, h⟩ := h
    cases pick with
    | none =>
      cases h
      simp at hout
    | some pick =>
      obtain ⟨best, rest⟩ := pick
      obtain ⟨others, hothers, h⟩ := bind_eq_ok_iff.1 h
      cases h
      obtain ⟨hfirst, hrest, hperm⟩ := comesFirst_of_pickFirst? hsorted hpick
      have hlen : rest.length = count := by
        have := hperm.length_eq
        simp only [List.length_cons] at this
        omega
      cases before with
      | nil =>
        cases hout
        exact hfirst.congr fun m => (hperm.trans ((perm_linearize hlen hothers).symm.cons k)).mem_iff
      | cons b before =>
        cases hout
        exact ih hlen hrest hothers rfl

theorem agree_linearize (count : Nat) {keys' : List Key} (h : List.Forall₂ (· == ·) keys keys') :
    Agree (List.Forall₂ (· == ·)) (linearize s count keys) (linearize s count keys') := by
  induction count generalizing keys keys' with
  | zero => exact agree_ok .nil
  | succ count ih =>
    rw [linearize, linearize]
    refine (agree_pickFirst? h).bind fun pick pick' hpick => ?_
    cases hpick with
    | none => exact agree_ok .nil
    | some hpick => exact (ih hpick.2).bind fun _ _ hrest => agree_ok (.cons hpick.1 hrest)

/-- Text order leaves open only how equal keys stand to each other. -/
theorem agree_sort {keys' : List Key} (hsep : Separated hasher keys) (hperm : keys'.Perm keys) :
    Agree (List.Forall₂ (· == ·)) (sort hasher s keys) (sort hasher s keys') := by
  rw [sort, sort, hperm.length_eq]
  refine agree_linearize _ (forall₂_sortByText (hperm.symm.map (rank hasher)) fun a ha b hb => ?_)
  exact hsep a ha b (hperm.mem_iff.1 hb)

theorem head?_of_sort {out : List Key} {best : Option Key} (hout : sort hasher s keys = .ok out)
    (hbest : mostSpecific? hasher s keys = .ok best) : best = out.head? := by
  rw [mostSpecific?, bind_eq_ok_iff] at hbest
  obtain ⟨pick, hpick, hbest⟩ := hbest
  cases hbest
  cases keys with
  | nil =>
    cases hpick
    cases hout
    rfl
  | cons k keys =>
    rw [sort, List.length_cons, linearize, hpick, ok_bind] at hout
    cases pick with
    | none =>
      cases hout
      rfl
    | some pick =>
      obtain ⟨rest, _, hout⟩ := bind_eq_ok_iff.1 hout
      cases hout
      rfl

/-- Sorted keys are those given, at each position the one that comes first among those left, in whatever order they are
given. The most specific key is the first of them. -/
theorem sort_greedy_in_any_order (hasher : Hasher) (s : Store) (keys : List Key) :
    (∀ out, sort hasher s keys = .ok out →
      out.Perm keys ∧
        (∀ before k after, out = before ++ k :: after → ComesFirst hasher s (k :: after) k) ∧
        (Separated hasher keys → ∀ keys' out', keys'.Perm keys → sort hasher s keys' = .ok out' →
          List.Forall₂ (· == ·) out out')) ∧
      ∀ best, mostSpecific? hasher s keys = .ok best →
        (best = none ↔ keys = []) ∧ ∀ out, sort hasher s keys = .ok out → best = out.head? := by
  have hlen := (perm_sortByText hasher keys).length_eq
  refine ⟨fun out hout => ⟨?_, ?_, ?_⟩, fun best hbest => ⟨?_, fun out hout => head?_of_sort hout hbest⟩⟩
  · exact (perm_linearize hlen hout).trans (perm_sortByText hasher keys)
  · intro before k after heq
    exact comesFirst_of_linearize hlen (inTextOrder_sortByText keys) hout heq
  · intro hsep keys' out' hperm hout'
    exact agree_sort hsep hperm out out' hout hout'
  · rcases mostSpecific?_eq_ok hbest with ⟨rfl, rfl⟩ | ⟨k, hk, rfl, _⟩
    · simp
    · simp [List.ne_nil_of_mem hk]

/-- Sequences of sequences of numbers. -/
def numberRows : Key := sequencesKey [.bare ⟨2⟩, .bare ⟨1⟩]

/-- The same with the bounds turned round. -/
def turnedRows : Key := sequencesKey [.bare ⟨1⟩, .bare ⟨2⟩]

/-- Sequences of boxes of integers. -/
def boxRows : Key := boxesKey [.bare ⟨3⟩]

/-- Boxes come before the two keys that are equal, and these stand as they were given. -/
theorem shapes_sorted_in_any_order :
    sort List.sum shapes [numberRows, boxRows, turnedRows] = .ok [boxRows, numberRows, turnedRows] ∧
      sort List.sum shapes [turnedRows, numberRows, boxRows] = .ok [boxRows, turnedRows, numberRows] ∧
      List.Forall₂ (· == ·) [boxRows, numberRows, turnedRows] [boxRows, turnedRows, numberRows] ∧
      ComesFirst List.sum shapes [boxRows, numberRows, turnedRows] boxRows ∧
      ComesFirst List.sum shapes [numberRows, turnedRows] numberRows ∧
      ∃ best, mostSpecific? List.sum shapes [numberRows, boxRows, turnedRows] = .ok best ∧ best = some boxRows := by
  have hsort : sort List.sum shapes [numberRows, boxRows, turnedRows] = .ok [boxRows, numberRows, turnedRows] := rfl
  have hturned : sort List.sum shapes [turnedRows, numberRows, boxRows] = .ok [boxRows, turnedRows, numberRows] := rfl
  have hsep : Separated List.sum [numberRows, boxRows, turnedRows] := by
    unfold Separated
    decide +kernel
  have hperm : [turnedRows, numberRows, boxRows].Perm [numberRows, boxRows, turnedRows] :=
    (List.perm_append_singleton turnedRows [numberRows, boxRows]).symm
  obtain ⟨hsorted, hmost⟩ := sort_greedy_in_any_order List.sum shapes [numberRows, boxRows, turnedRows]
  obtain ⟨_, hfirst, halike⟩ := hsorted _ hsort
  exact ⟨hsort, hturned, halike hsep _ _ hperm hturned, hfirst [] _ _ rfl, hfirst [boxRows] _ _ rfl, _, rfl,
    (hmost _ rfl).2 _ hsort⟩

end Generics.Key
