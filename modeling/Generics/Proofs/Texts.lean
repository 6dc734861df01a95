import Mathlib.Data.List.Sort
import Mathlib.Data.String.Basic
import Generics.Store.Text
import Generics.Proofs.Sameness

/-! # Descriptors that are the same have one text

The texts of a wildcard's bounds are written in ascending order, each one once. There is one such list for a set of
texts (`textSet_eq_of_mem_iff`), so neither the order nor the repetitions of the bounds show. -/

namespace Generics
set_option autoImplicit false

/-! ## Sets of texts -/

theorem pairwise_insertText (t : String) {ts : List String} (h : ts.Pairwise (· < ·)) :
    (insertText t ts).Pairwise (· < ·) := by
  induction ts with
  | nil => simp [insertText]
  | cons u us ih =>
    obtain ⟨hu, hus⟩ := List.pairwise_cons.1 h
    rw [insertText]
    split
    next hlt => exact List.pairwise_cons.2 ⟨List.forall_mem_cons.2 ⟨hlt, fun x hx => hlt.trans (hu x hx)⟩, h⟩
    next hnlt =>
      split
      next => exact h
      next hne =>
        have hgt : u < t := lt_of_le_of_ne (not_lt.1 hnlt) (Ne.symm hne)
        refine List.pairwise_cons.2 ⟨fun x hx => ?_, ih hus⟩
        rcases mem_insertText.1 hx with rfl | hx
        · exact hgt
        · exact hu x hx

theorem pairwise_textSet (ts : List String) : (textSet ts).Pairwise (· < ·) := by
  induction ts with
  | nil => exact .nil
  | cons t ts ih => exact pairwise_insertText t ih

theorem textSet_eq_of_mem_iff {ts us : List String} (h : ∀ t, t ∈ ts ↔ t ∈ us) : textSet ts = textSet us :=
  (pairwise_textSet ts).eq_of_mem_iff (pairwise_textSet us) fun t => by rw [mem_textSet, mem_textSet, h t]

namespace Store

open Descriptor

/-! ## Texts of descriptors -/

theorem boundsText_eq_of_sameSets (s : Store) (word : String) {ds es : List Descriptor} (h : SameSets ds es)
    (htext : ∀ d ∈ ds, ∀ e, (d == e) = true → s.text d = s.text e) :
    boundsText word (s.texts ds) = boundsText word (s.texts es) := by
  have hempty : (s.texts ds).isEmpty = (s.texts es).isEmpty := by
    rw [Bool.eq_iff_iff, texts_eq, texts_eq, List.isEmpty_iff, List.isEmpty_iff, List.map_eq_nil_iff,
      List.map_eq_nil_iff, h.eq_nil_iff]
  have hmem : ∀ t, t ∈ s.texts ds ↔ t ∈ s.texts es := by
    intro t
    rw [texts_eq, texts_eq, List.mem_map, List.mem_map]
    constructor
    · rintro ⟨d, hd, rfl⟩
      obtain ⟨e, he, hde⟩ := h.1 d hd
      exact ⟨e, he, (htext d hd e hde).symm⟩
    · rintro ⟨e, he, rfl⟩
      obtain ⟨d, hd, hde⟩ := h.2 e he
      exact ⟨d, hd, htext d hd e hde⟩
  rw [boundsText, boundsText, hempty, textSet_eq_of_mem_iff hmem]

theorem texts_eq_of_forall₂ (s : Store) {ds es : List Descriptor}
    (h : List.Forall₂ (fun d e => s.text d = s.text e) ds es) : s.texts ds = s.texts es := by
  induction h with
  | nil => rfl
  | cons hd _ ih => rw [texts, texts, hd, ih]

/-- Descriptors that are the same have the same text. -/
theorem text_eq_of_beq (s : Store) {d e : Descriptor} (h : d == e) : s.text d = s.text e := by
  induction d using Descriptor.induct generalizing e with
  | bare c => rw [bare_beq_iff.1 h]
  | applied owner c args ho ha =>
    obtain ⟨owner', args', rfl, howner, hargs⟩ := applied_beq_iff.1 h
    have hownerText : s.ownerText owner = s.ownerText owner' := by
      cases howner with
      | none => rfl
      | some heq => rw [ownerText, ownerText, ho _ rfl heq]
    have htexts : s.texts args = s.texts args' :=
      s.texts_eq_of_forall₂ (forall₂_imp_of_mem hargs fun a hmem b heq => ha a hmem heq)
    have hempty : args.isEmpty = args'.isEmpty := by
      cases hargs <;> rfl
    rw [text, text, hownerText, htexts, hempty]
  | var v => rw [var_beq_iff.1 h]
  | wildcard lower upper hl hu =>
    obtain ⟨lower', upper', rfl, hlower, hupper⟩ := wildcard_beq_iff.1 h
    rw [text, text, s.boundsText_eq_of_sameSets _ hlower fun d hd _ heq => hl d hd heq,
      s.boundsText_eq_of_sameSets _ hupper fun d hd _ heq => hu d hd heq]

end Store

end Generics
