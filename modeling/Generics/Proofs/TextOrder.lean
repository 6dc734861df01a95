import Mathlib.Data.List.Sort
import Generics.Proofs.Digests
import Generics.Proofs.Interchange
import Generics.Proofs.Specificity
import Generics.Proofs.Texts

/-! # The order of texts, and what is picked by it

Text order compares the ranks of keys, their texts with the numbers of their classes and their digests. Equal keys have
one rank. So keys of the same ranks are sorted alike however they stood before, key by key of one rank
(`forall₂_sortByText`), and what is picked from lists that are equal key by key is equal. -/

namespace Generics.Key
set_option autoImplicit false

open Result

variable {s : Store} {hasher : Hasher}

/-! ## Ranks -/

/-- All that text order looks at. -/
def rank (hasher : Hasher) (k : Key) : String × UInt32 × UInt64 := (k.text, k.raw.num, k.descriptor.digest hasher)

def rankOrder : String × UInt32 × UInt64 → String × UInt32 × UInt64 → Ordering :=
  compareLex (compareLex (compareOn (·.1)) (compareOn (·.2.1))) (compareOn (·.2.2))

theorem textOrder_eq (a b : Key) : textOrder hasher a b = rankOrder (a.rank hasher) (b.rank hasher) := rfl

instance : Std.TransCmp rankOrder := by
  unfold rankOrder
  infer_instance

instance : Std.LawfulEqCmp rankOrder where
  eq_of_compare {p q} h := by
    simp only [rankOrder, compareLex, Ordering.then_eq_eq, compareOn, Std.LawfulEqOrd.compare_eq_iff_eq] at h
    exact Prod.ext h.1.1 (Prod.ext h.1.2 h.2)

def RankLE (p q : String × UInt32 × UInt64) : Prop := (rankOrder p q).isLE = true

theorem RankLE.trans {p q r : String × UInt32 × UInt64} (h : RankLE p q) (h' : RankLE q r) : RankLE p r :=
  Std.TransCmp.isLE_trans h h'

theorem RankLE.antisymm {p q : String × UInt32 × UInt64} (h : RankLE p q) (h' : RankLE q p) : p = q :=
  Std.LawfulEqCmp.eq_of_compare (Std.OrientedCmp.isLE_antisymm h h')

theorem rankLE_of_textOrder_ne_gt {a b : Key} (h : textOrder hasher a b ≠ .gt) :
    RankLE (a.rank hasher) (b.rank hasher) := by
  rw [textOrder_eq] at h
  rwa [RankLE, Ordering.isLE_iff_ne_gt]

theorem rankLE_of_textOrder_eq_gt {a b : Key} (h : textOrder hasher a b = .gt) :
    RankLE (b.rank hasher) (a.rank hasher) := by
  rw [textOrder_eq] at h
  rw [RankLE, Std.OrientedCmp.lt_of_gt h]
  rfl

/-- Keys of one rank are equal: no two shapes of one text and one class have the same digest. -/
def Separated (hasher : Hasher) (keys : List Key) : Prop :=
  ∀ a ∈ keys, ∀ b ∈ keys, a.rank hasher = b.rank hasher → a == b

theorem Separated.subset {keys keys' : List Key} (h : Separated hasher keys) (hsub : ∀ k ∈ keys', k ∈ keys) :
    Separated hasher keys' := fun a ha b hb => h a (hsub a ha) b (hsub b hb)

theorem MadeIn.text_eq {k : Key} (h : k.MadeIn s) : k.text = s.text k.descriptor := by
  obtain ⟨d, allowVars, hfreeze⟩ := h
  obtain ⟨_, _, c, _, rfl⟩ := freeze_eq_ok_iff.1 hfreeze
  rfl

theorem MadeIn.rank_eq (hasher : Hasher) {a b : Key} (ha : a.MadeIn s) (hb : b.MadeIn s) (h : a == b) :
    a.rank hasher = b.rank hasher := by
  have hraw : some a.raw = some b.raw := by rw [← ha.raw?_eq, ← hb.raw?_eq, Descriptor.raw?_eq_of_beq h]
  rw [rank, rank, ha.text_eq, hb.text_eq, s.text_eq_of_beq h, Option.some.inj hraw,
    Descriptor.digest_eq_of_beq hasher h]

/-! ## Sorted by text -/

/-- The keys stand in text order. -/
def InTextOrder (hasher : Hasher) (keys : List Key) : Prop :=
  keys.Pairwise fun a b => RankLE (a.rank hasher) (b.rank hasher)

theorem InTextOrder.insertBy (k : Key) {keys : List Key} (h : InTextOrder hasher keys) :
    InTextOrder hasher (insertBy (textOrder hasher) k keys) := by
  induction keys with
  | nil => exact List.pairwise_singleton ..
  | cons l ls ih =>
    obtain ⟨hl, hls⟩ := List.pairwise_cons.1 h
    rw [Key.insertBy]
    split
    next hgt =>
      refine List.pairwise_cons.2 ⟨fun x hx => ?_, ih hls⟩
      rcases List.mem_cons.1 ((perm_insertBy _ k ls).mem_iff.1 hx) with rfl | hx
      · exact rankLE_of_textOrder_eq_gt hgt
      · exact hl x hx
    next hle =>
      have hkl := rankLE_of_textOrder_ne_gt hle
      exact List.pairwise_cons.2 ⟨List.forall_mem_cons.2 ⟨hkl, fun x hx => hkl.trans (hl x hx)⟩, h⟩

theorem inTextOrder_sortByText (keys : List Key) : InTextOrder hasher (sortByText hasher keys) := by
  induction keys with
  | nil => exact .nil
  | cons k keys ih => exact ih.insertBy k

theorem ranks_sortByText_eq {xs ys : List Key} (h : (xs.map (rank hasher)).Perm (ys.map (rank hasher))) :
    (sortByText hasher xs).map (rank hasher) = (sortByText hasher ys).map (rank hasher) := by
  have hsorted : ∀ keys, ((sortByText hasher keys).map (rank hasher)).Pairwise RankLE := fun keys =>
    List.pairwise_map.2 (inTextOrder_sortByText keys)
  have hperm : ∀ keys, ((sortByText hasher keys).map (rank hasher)).Perm (keys.map (rank hasher)) := fun keys =>
    (perm_sortByText hasher keys).map (rank hasher)
  exact List.Perm.eq_of_pairwise (fun _ _ _ _ => RankLE.antisymm) (hsorted xs) (hsorted ys)
    ((hperm xs).trans (h.trans (hperm ys).symm))

theorem forall₂_sortByText {xs ys : List Key} (hranks : (xs.map (rank hasher)).Perm (ys.map (rank hasher)))
    (hequal : ∀ x ∈ xs, ∀ y ∈ ys, x.rank hasher = y.rank hasher → x == y) :
    List.Forall₂ (· == ·) (sortByText hasher xs) (sortByText hasher ys) := by
  have heq := ranks_sortByText_eq hranks
  refine List.forall₂_iff_get.2 ⟨by simpa using congrArg List.length heq, fun i hx hy => ?_⟩
  refine hequal _ ((perm_sortByText hasher xs).mem_iff.1 (List.get_mem ..)) _
    ((perm_sortByText hasher ys).mem_iff.1 (List.get_mem ..)) ?_
  have hi := congrArg (·[i]?) heq
  simpa [hx, hy] using hi

/-! ## Picks -/

theorem agree_isMinimal {keys keys' : List Key} {k k' : Key} (hkeys : List.Forall₂ (· == ·) keys keys')
    (hk : k == k') : Agree (· = ·) (isMinimal s keys k) (isMinimal s keys' k') := by
  have hany : Agree (· = ·) (keys.anyM fun other => other.moreSpecific s k)
      (keys'.anyM fun other => other.moreSpecific s k') := by
    induction hkeys with
    | nil => exact agree_ok rfl
    | cons hother _ ih =>
      rw [anyM_cons_eq, anyM_cons_eq]
      refine (agree_moreSpecific hother hk).bind fun b b' heq => ?_
      cases heq
      cases b with
      | true => exact agree_ok rfl
      | false => exact ih
  exact hany.bind fun _ _ heq => agree_ok (by rw [heq])

/-- Both pick nothing, or equal keys from lists that are equal without them too. -/
abbrev SamePick (pick pick' : Option (Key × List Key)) : Prop :=
  Option.Rel (fun p p' => p.1 == p'.1 ∧ List.Forall₂ (· == ·) p.2 p'.2) pick pick'

theorem agree_pickMinimal? {keys keys' candidates candidates' : List Key}
    (hkeys : List.Forall₂ (· == ·) keys keys') (hcandidates : List.Forall₂ (· == ·) candidates candidates') :
    Agree SamePick (pickMinimal? s keys candidates) (pickMinimal? s keys' candidates') := by
  induction hcandidates with
  | nil => exact agree_ok .none
  | @cons k k' rest rest' hk hrest ih =>
    rw [pickMinimal?, pickMinimal?]
    refine (agree_isMinimal hkeys hk).bind fun minimal minimal' heq => ?_
    cases heq
    cases minimal with
    | true => exact agree_ok (.some ⟨hk, hrest⟩)
    | false =>
      refine ih.bind fun pick pick' hpick => ?_
      cases hpick with
      | none => exact agree_ok .none
      | some hpick => exact agree_ok (.some ⟨hpick.1, .cons hk hpick.2⟩)

theorem agree_pickFirst? {keys keys' : List Key} (hkeys : List.Forall₂ (· == ·) keys keys') :
    Agree SamePick (pickFirst? s keys) (pickFirst? s keys') := by
  refine (agree_pickMinimal? hkeys hkeys).bind fun pick pick' hpick => ?_
  cases hpick with
  | some hpick => exact agree_ok (.some hpick)
  | none =>
    cases hkeys with
    | nil => exact agree_ok .none
    | cons hk hrest => exact agree_ok (.some ⟨hk, hrest⟩)

theorem agree_mostSpecific? {keys keys' : List Key}
    (hkeys : List.Forall₂ (· == ·) (sortByText hasher keys) (sortByText hasher keys')) :
    Agree (Option.Rel (· == ·)) (mostSpecific? hasher s keys) (mostSpecific? hasher s keys') := by
  refine (agree_pickFirst? hkeys).bind fun pick pick' hpick => ?_
  cases hpick with
  | none => exact agree_ok .none
  | some hpick => exact agree_ok (.some hpick.1)

/-- The key chosen is one of those given, and minimal unless none is. -/
theorem mostSpecific?_eq_ok {keys : List Key} {best : Option Key} (h : mostSpecific? hasher s keys = .ok best) :
    (keys = [] ∧ best = none) ∨
      ∃ k ∈ keys, best = some k ∧ (MinimalIn s keys k ∨ ∀ other ∈ keys, ¬ MinimalIn s keys other) := by
  have hmem : ∀ k, k ∈ sortByText hasher keys ↔ k ∈ keys := fun k => (perm_sortByText hasher keys).mem_iff
  have hminimal : ∀ k, MinimalIn s (sortByText hasher keys) k ↔ MinimalIn s keys k := fun k => by
    simp only [MinimalIn, hmem]
  rw [mostSpecific?, bind_eq_ok_iff] at h
  obtain ⟨pick, hpick, h⟩ := h
  rcases pickFirst?_eq_ok hpick with ⟨hnil, rfl⟩ | ⟨before, k, after, heq, rfl, hmin⟩
  · cases h
    refine .inl ⟨?_, rfl⟩
    rw [← List.perm_nil, ← hnil]
    exact (perm_sortByText hasher keys).symm
  · cases h
    refine .inr ⟨k, (hmem k).1 (by rw [heq]; simp), rfl, ?_⟩
    simpa only [hminimal, hmem] using hmin

end Generics.Key
