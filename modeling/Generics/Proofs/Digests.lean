import Mathlib.Algebra.BigOperators.Group.Finset.Basic
import Mathlib.Data.UInt
import Generics.Descriptor.Digest
import Generics.Proofs.Sameness

/-! # Descriptors that are the same have one digest

The digests of a wildcard's bounds are added up, each bound once that is not the same as an earlier one. So the sum
goes over a set, the set of the bounds' kinds (`kinds`), where a kind is all descriptors that are the same as some one.
Wildcards that are the same have the same kinds of bounds, and the order and the repetitions are gone. -/

namespace Generics.Descriptor
set_option autoImplicit false

/-! ## Kinds -/

instance setoid : Setoid Descriptor where
  r d e := (d == e) = true
  iseqv := ⟨fun _ => BEq.rfl, BEq.symm, BEq.trans⟩

instance (d e : Descriptor) : Decidable (d ≈ e) := inferInstanceAs (Decidable ((d == e) = true))

/-- A descriptor with all that are the same. -/
abbrev Kind : Type := Quotient setoid

def kinds (ds : List Descriptor) : Finset Kind := (ds.map Quotient.mk'').toFinset

theorem mem_kinds {d : Descriptor} {ds : List Descriptor} : Quotient.mk'' d ∈ kinds ds ↔ ∃ e ∈ ds, e == d := by
  simp only [kinds, List.mem_toFinset, List.mem_map, Quotient.eq'']
  rfl

theorem kinds_cons (d : Descriptor) (ds : List Descriptor) :
    kinds (d :: ds) = insert (Quotient.mk'' d) (kinds ds) := by
  rw [kinds, List.map_cons, List.toFinset_cons]
  rfl

theorem SameSets.kinds_eq {ds es : List Descriptor} (h : SameSets ds es) : kinds ds = kinds es := by
  ext kind
  induction kind using Quotient.inductionOn' with
  | h x =>
    rw [mem_kinds, mem_kinds]
    constructor
    · rintro ⟨d, hd, hdx⟩
      obtain ⟨e, he, hde⟩ := h.1 d hd
      exact ⟨e, he, BEq.trans (BEq.symm hde) hdx⟩
    · rintro ⟨e, he, hex⟩
      obtain ⟨d, hd, hde⟩ := h.2 e he
      exact ⟨d, hd, BEq.trans hde hex⟩

/-! ## Digests of bounds -/

/-- The bounds that are not the same as an earlier one count, each for its kind. -/
theorem boundsDigest_eq_sum (h : Hasher) {f : Kind → UInt64} {earlier ds : List Descriptor}
    (hf : ∀ d ∈ ds, h (d.words h) = f (Quotient.mk'' d)) :
    boundsDigest h earlier ds = ∑ kind ∈ kinds ds \ kinds earlier, f kind := by
  induction ds generalizing earlier with
  | nil => simp [boundsDigest, kinds]
  | cons d ds ih =>
    obtain ⟨hd, hs⟩ := List.forall_mem_cons.1 hf
    rw [boundsDigest, ih hs, kinds_cons, kinds_cons, hd]
    have hany : earlier.any (· == d) = true ↔ Quotient.mk'' d ∈ kinds earlier := by
      rw [List.any_eq_true, mem_kinds]
    by_cases hmem : Quotient.mk'' d ∈ kinds earlier
    · rw [if_pos (hany.2 hmem), zero_add, Finset.insert_eq_of_mem hmem, Finset.insert_sdiff_of_mem _ hmem]
    · have hsplit : insert (Quotient.mk'' d) (kinds ds) \ kinds earlier =
          insert (Quotient.mk'' d) (kinds ds \ insert (Quotient.mk'' d) (kinds earlier)) := by
        ext kind
        simp only [Finset.mem_sdiff, Finset.mem_insert]
        grind
      rw [if_neg fun hd => hmem (hany.1 hd), hsplit, Finset.sum_insert (by simp)]

theorem SameSets.boundsDigest_eq {h : Hasher} {ds es : List Descriptor} (hsame : SameSets ds es)
    (hwords : ∀ d ∈ ds, ∀ e, (d == e) = true → d.words h = e.words h) :
    boundsDigest h [] ds = boundsDigest h [] es := by
  -- a kind is digested by any of its descriptors, here by the one that the quotient gives out
  let f : Kind → UInt64 := fun kind => h (kind.out.words h)
  have hout : ∀ d : Descriptor, (d == (Quotient.mk'' d : Kind).out) = true := fun d =>
    BEq.symm (Quotient.exact (Quotient.out_eq (Quotient.mk'' d : Kind)))
  have hds : ∀ d ∈ ds, h (d.words h) = f (Quotient.mk'' d) := fun d hd => by
    rw [hwords d hd _ (hout d)]
  have hes : ∀ e ∈ es, h (e.words h) = f (Quotient.mk'' e) := fun e he => by
    obtain ⟨d, hd, hde⟩ := hsame.2 e he
    rw [← hwords d hd e hde, hwords d hd _ (BEq.trans hde (hout e))]
  rw [boundsDigest_eq_sum h hds, boundsDigest_eq_sum h hes, hsame.kinds_eq]

/-! ## Digests of descriptors -/

theorem listWords_eq_of_forall₂ {h : Hasher} {ds es : List Descriptor}
    (hwords : List.Forall₂ (fun d e => d.words h = e.words h) ds es) : listWords h ds = listWords h es := by
  induction hwords with
  | nil => rfl
  | cons hd _ ih => rw [listWords, listWords, hd, ih]

/-- Descriptors that are the same are written as the same words. -/
theorem words_eq_of_beq (h : Hasher) {d e : Descriptor} (hsame : d == e) : d.words h = e.words h := by
  induction d using Descriptor.induct generalizing e with
  | bare c => rw [bare_beq_iff.1 hsame]
  | applied owner c args ho ha =>
    obtain ⟨owner', args', rfl, howner, hargs⟩ := applied_beq_iff.1 hsame
    have hownerWords : ownerWords h owner = ownerWords h owner' := by
      cases howner with
      | none => rfl
      | some heq => rw [ownerWords, ownerWords, ho _ rfl heq]
    have hlistWords : listWords h args = listWords h args' :=
      listWords_eq_of_forall₂ (forall₂_imp_of_mem hargs fun a hmem b heq => ha a hmem heq)
    rw [words, words, hownerWords, hlistWords, hargs.length_eq]
  | var v => rw [var_beq_iff.1 hsame]
  | wildcard lower upper hl hu =>
    obtain ⟨lower', upper', rfl, hlower, hupper⟩ := wildcard_beq_iff.1 hsame
    rw [words, words, hlower.boundsDigest_eq fun d hd _ heq => hl d hd heq,
      hupper.boundsDigest_eq fun d hd _ heq => hu d hd heq]

theorem digest_eq_of_beq (h : Hasher) {d e : Descriptor} (hsame : d == e) : d.digest h = e.digest h := by
  rw [digest, digest, words_eq_of_beq h hsame]

/-- To be the same is an equivalence, and descriptors that are the same are written as the same words and have the same
digest, whatever the hasher. -/
theorem sameness_equivalence_and_digest :
    (∀ d : Descriptor, d == d) ∧ (∀ d e : Descriptor, d == e → e == d) ∧
      (∀ d e f : Descriptor, d == e → e == f → d == f) ∧
      ∀ (h : Hasher) (d e : Descriptor), d == e → d.words h = e.words h ∧ d.digest h = e.digest h :=
  ⟨fun _ => BEq.rfl, fun _ _ => beq_symm, fun _ _ _ => beq_trans,
    fun h _ _ hsame => ⟨words_eq_of_beq h hsame, digest_eq_of_beq h hsame⟩⟩

/-- `Outer<? extends A & B>.Inner<? super Box<? extends B & A> & A>`. -/
def orderly : Descriptor :=
  .applied (some (.generic ⟨1⟩ [.wildcard [] [.bare ⟨3⟩, .bare ⟨4⟩]])) ⟨2⟩
    [.wildcard [.generic ⟨5⟩ [.wildcard [] [.bare ⟨4⟩, .bare ⟨3⟩]], .bare ⟨3⟩] []]

/-- The same with bounds turned round and repeated at every depth. -/
def jumbled : Descriptor :=
  .applied (some (.generic ⟨1⟩ [.wildcard [] [.bare ⟨4⟩, .bare ⟨3⟩, .bare ⟨4⟩]])) ⟨2⟩
    [.wildcard [.bare ⟨3⟩, .generic ⟨5⟩ [.wildcard [] [.bare ⟨3⟩, .bare ⟨4⟩]], .bare ⟨3⟩,
      .generic ⟨5⟩ [.wildcard [] [.bare ⟨3⟩, .bare ⟨4⟩, .bare ⟨3⟩]]] []]

theorem jumbled_digest :
    orderly == jumbled ∧ orderly ≠ jumbled ∧ jumbled == orderly ∧
      ∀ h : Hasher, orderly.digest h = jumbled.digest h := by
  have hsame : orderly == jumbled := by rfl
  obtain ⟨_, hsymm, _, hdigest⟩ := sameness_equivalence_and_digest
  exact ⟨hsame, by simp [orderly, jumbled], hsymm _ _ hsame, fun h => (hdigest h _ _ hsame).2⟩

end Generics.Descriptor
