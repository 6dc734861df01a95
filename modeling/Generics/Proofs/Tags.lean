import Generics.Key.Tag
import Generics.Proofs.Casts
import Generics.Proofs.Lifetimes

/-! # Tags are read as they were written

A descriptor is read back from its document exactly, with its lists in their order and with their repetitions
(`Descriptor.ofDocument?_toDocument`). The reader counts levels, and a document is at least as deep as its descriptor
nests. So the tag that is read is the tag that was written: it passes for the keys with the same type and for no
others, and makes the key again that it was made of. -/

namespace Generics
set_option autoImplicit false

open Result

/-! ## Parts -/

theorem ClassId.ofDocument?_toDocument (c : ClassId) : ofDocument? c.toDocument = some c := by
  have hlt : (c.num.toNat : Int) < 4294967296 := by
    have := c.num.toNat_lt
    omega
  simp [ofDocument?, toDocument, Document.word?, hlt]

theorem Scope.ofDocument?_toDocument (scope : Scope) : ofDocument? scope.toDocument = some scope := by
  cases scope with
  | ofClass c => simp [ofDocument?, toDocument, Document.variant?, ClassId.ofDocument?_toDocument]
  | ofMethod c method =>
    simp [ofDocument?, toDocument, Document.variant?, Document.string?, ClassId.ofDocument?_toDocument]

/-! ## Descriptors -/

namespace Descriptor

theorem mapM_listToDocuments (levels : Nat) {ds : List Descriptor}
    (h : ∀ d ∈ ds, ofDocumentWithin? levels d.toDocument = some d) :
    (listToDocuments ds).mapM (fun d => ofDocumentWithin? levels d) = some ds := by
  induction ds with
  | nil => rfl
  | cons d ds ih =>
    obtain ⟨hd, hs⟩ := List.forall_mem_cons.1 h
    simp [listToDocuments, List.mapM_cons, hd, ih hs]

/-- A record without owner. -/
theorem ofDocumentWithin?_unowned (levels : Nat) (raw args : Document) :
    ofDocumentWithin? (levels + 1)
        (.object [("Parameterized", .object [("owner", .null), ("raw", raw), ("args", args)])]) = (do
      let raw ← ClassId.ofDocument? raw
      let args ← (← args.array?).mapM fun d => ofDocumentWithin? levels d
      return .applied none raw args) := by
  rw [ofDocumentWithin?]
  rfl

/-- A record with an owner, which is an object as every descriptor is. -/
theorem ofDocumentWithin?_owned (levels : Nat) (owner : List (String × Document)) (raw args : Document) :
    ofDocumentWithin? (levels + 1)
        (.object [("Parameterized", .object [("owner", .object owner), ("raw", raw), ("args", args)])]) = (do
      let owner ← some <$> ofDocumentWithin? levels (.object owner)
      let raw ← ClassId.ofDocument? raw
      let args ← (← args.array?).mapM fun d => ofDocumentWithin? levels d
      return .applied owner raw args) := by
  rw [ofDocumentWithin?]
  rfl

theorem exists_toDocument_eq (d : Descriptor) : ∃ fields, d.toDocument = .object fields := by
  cases d with
  | bare c => exact ⟨_, rfl⟩
  | applied owner c args => exact ⟨_, rfl⟩
  | var v => exact ⟨_, rfl⟩
  | wildcard lower upper => exact ⟨_, rfl⟩

theorem ofDocumentWithin?_toDocument {d : Descriptor} {levels : Nat} (h : d.nesting ≤ levels) :
    ofDocumentWithin? levels d.toDocument = some d := by
  induction d using Descriptor.induct generalizing levels with
  | bare c =>
    cases levels with
    | zero => simp [nesting] at h
    | succ levels => simp [ofDocumentWithin?, toDocument, Document.variant?, ClassId.ofDocument?_toDocument]
  | applied owner c args ho ha =>
    cases levels with
    | zero => simp [nesting] at h
    | succ levels =>
      simp only [nesting] at h
      have hargs := mapM_listToDocuments levels fun a hmem => ha a hmem (by
        have := nesting_le_listNesting hmem
        omega)
      cases owner with
      | none =>
        rw [toDocument, ownerToDocument, ofDocumentWithin?_unowned]
        simp [ClassId.ofDocument?_toDocument, Document.array?, hargs]
      | some o =>
        have howner : ofDocumentWithin? levels o.toDocument = some o := ho o rfl (by
          simp only [ownerNesting] at h
          omega)
        obtain ⟨fields, hfields⟩ := o.exists_toDocument_eq
        rw [hfields] at howner
        rw [toDocument, ownerToDocument, hfields, ofDocumentWithin?_owned]
        simp [ClassId.ofDocument?_toDocument, Document.array?, howner, hargs]
  | var v =>
    cases levels with
    | zero => simp [nesting] at h
    | succ levels =>
      simp [ofDocumentWithin?, toDocument, Document.variant?, Document.parts?, Document.string?, List.lookup_cons,
        Scope.ofDocument?_toDocument]
  | wildcard lower upper hl hu =>
    cases levels with
    | zero => simp [nesting] at h
    | succ levels =>
      simp only [nesting] at h
      have hlower := mapM_listToDocuments levels fun l hmem => hl l hmem (by
        have := nesting_le_listNesting hmem
        omega)
      have hupper := mapM_listToDocuments levels fun u hmem => hu u hmem (by
        have := nesting_le_listNesting hmem
        omega)
      simp [ofDocumentWithin?, toDocument, Document.variant?, Document.parts?, Document.array?, List.lookup_cons,
        hlower, hupper]

theorem listNesting_le_listDepth {ds : List Descriptor} (h : ∀ d ∈ ds, d.nesting ≤ d.toDocument.depth) :
    listNesting ds ≤ Document.listDepth (listToDocuments ds) := by
  induction ds with
  | nil => simp [listNesting]
  | cons d ds ih =>
    obtain ⟨hd, hs⟩ := List.forall_mem_cons.1 h
    have := ih hs
    simp only [listNesting, listToDocuments, Document.listDepth]
    omega

theorem nesting_le_depth (d : Descriptor) : d.nesting ≤ d.toDocument.depth := by
  induction d using Descriptor.induct with
  | bare c => simp [nesting, toDocument, Document.depth]
  | applied owner c args ho ha =>
    have hargs := listNesting_le_listDepth ha
    have howner : ownerNesting owner ≤ (ownerToDocument owner).depth := by
      cases owner with
      | none => simp [ownerNesting]
      | some o => exact ho o rfl
    simp only [nesting, toDocument, Document.depth, Document.fieldsDepth]
    omega
  | var v => simp [nesting, toDocument, Document.depth]
  | wildcard lower upper hl hu =>
    have hlower := listNesting_le_listDepth hl
    have hupper := listNesting_le_listDepth hu
    simp only [nesting, toDocument, Document.depth, Document.fieldsDepth]
    omega

theorem ofDocument?_toDocument (d : Descriptor) : ofDocument? d.toDocument = some d :=
  ofDocumentWithin?_toDocument d.nesting_le_depth

end Descriptor

/-! ## Tags -/

theorem Tag.ofDocument?_toDocument (t : Tag) : ofDocument? t.toDocument = some t := by
  simp [ofDocument?, toDocument, Document.parts?, Document.string?, List.lookup_cons, Descriptor.ofDocument?_toDocument]

theorem Tag.verify_eq_ok_iff {t : Tag} {expected : Key} :
    t.verify expected = .ok () ↔ expected.descriptor == t.descriptor := by
  rw [verify, BEq.comm]
  cases expected.descriptor == t.descriptor <;> simp

/-- A key without variables can be made again of its descriptor at any later time. -/
theorem Key.MadeIn.of_eq {s s' : Store} {k : Key} (h : k.MadeIn s) (hk : k.isPartial = false) (hext : s.Extends s') :
    Key.of s' k.descriptor = .ok k := by
  have hclosed := h.closed hk
  obtain ⟨d, allowVars, hfreeze⟩ := h
  obtain ⟨hwf, _, c, hraw, rfl⟩ := freeze_eq_ok_iff.1 (Key.freeze_of_extends hext hfreeze)
  refine freeze_eq_ok_iff.2 ⟨hwf, fun _ => hclosed, c, hraw, ?_⟩
  simp only [Key.mk.injEq, true_and]
  exact hk

/-- A tag of a key without variables is read as it was written, passes for the keys of the same type and no others, and
makes the key again, also after further operations. -/
theorem tags_survive_the_stream (s s' : Store) (k : Key) (hk : k.MadeIn s) (hresolved : k.isPartial = false)
    (hext : s.Extends s') :
    ∃ t, Tag.ofDocument? (Tag.ofKey k).toDocument = some t ∧ t.descriptor = k.descriptor ∧ t.text = k.text ∧
      (∀ e : Key, t.verify e = .ok () ↔ e.descriptor == k.descriptor) ∧ t.verify k = .ok () ∧
      (∀ e : Key, (Tag.ofKey e).toDocument = (Tag.ofKey k).toDocument → e == k) ∧ t.toKey s' = .ok k := by
  refine ⟨Tag.ofKey k, Tag.ofDocument?_toDocument _, rfl, rfl, fun e => Tag.verify_eq_ok_iff, ?_, ?_, ?_⟩
  · exact Tag.verify_eq_ok_iff.2 BEq.rfl
  · intro e hdocument
    have hread := Tag.ofDocument?_toDocument (Tag.ofKey e)
    rw [hdocument, Tag.ofDocument?_toDocument] at hread
    have htag : Tag.ofKey k = Tag.ofKey e := Option.some.inj hread
    have hdescriptor : k.descriptor = e.descriptor := congrArg Tag.descriptor htag
    rw [Key.beq_eq, hdescriptor]
    exact BEq.rfl
  · exact hk.of_eq hresolved hext

/-- `Sequence<? extends Number>.Inner<..>` with these upper bounds of its argument. -/
def innerKey (upper : List Descriptor) : Key :=
  let d : Descriptor := .applied (some (.generic ⟨5⟩ [.extending (.bare ⟨2⟩)])) ⟨8⟩ [.wildcard [.bare ⟨3⟩] upper]
  ⟨d, ⟨8⟩, shapes.text d, false⟩

/-- Order and repetitions of bounds survive, but do not count when the tag is checked. -/
theorem shapes_tag :
    ∃ t, Tag.ofDocument? (Tag.ofKey (innerKey [.bare ⟨2⟩, .bare ⟨1⟩, .bare ⟨2⟩])).toDocument = some t ∧
      t.descriptor = (innerKey [.bare ⟨2⟩, .bare ⟨1⟩, .bare ⟨2⟩]).descriptor ∧
      t.text = "Sequence<? extends Number>.Inner<? extends Number & Object super Integer>" ∧
      t.verify (innerKey [.bare ⟨1⟩, .bare ⟨2⟩]) = .ok () ∧ t.verify (innerKey [.bare ⟨2⟩]) ≠ .ok () ∧
      t.toKey shapes = .ok (innerKey [.bare ⟨2⟩, .bare ⟨1⟩, .bare ⟨2⟩]) := by
  have hmade : (innerKey [.bare ⟨2⟩, .bare ⟨1⟩, .bare ⟨2⟩]).MadeIn shapes :=
    ⟨(innerKey [.bare ⟨2⟩, .bare ⟨1⟩, .bare ⟨2⟩]).descriptor, false, rfl⟩
  obtain ⟨t, hread, hdescriptor, htext, hverify, _, _, hkey⟩ :=
    tags_survive_the_stream shapes shapes _ hmade rfl (.refl shapes)
  refine ⟨t, hread, hdescriptor, htext.trans (by decide), (hverify _).2 (by rfl), fun hok => ?_, hkey⟩
  exact absurd ((hverify _).1 hok) (by decide)

end Generics
