import Generics.Interner

/-! # Atoms keep their strings

Interning only ever adds a string at the end of a shard, with an atom that the shard had not for it
(`Interner.extends_intern`). So what has an atom keeps it, and the atom keeps what it resolves to. The map of a shard
and its list of strings are written together and say the same (`Shard.Agrees`): a string has an atom in the map
exactly if it is in the list, and the atom is made of its place there. -/

namespace Generics
set_option autoImplicit false

/-! ## Map and list of a shard -/

namespace Shard

variable {shard : Shard} {number : Fin 16}

theorem getElem?_atoms_empty (text : String) : empty.atoms[text]? = none := Std.TreeMap.getElem?_emptyc

theorem getElem?_atoms_add (shard : Shard) (text other : String) (a : Atom) :
    (shard.add text a).atoms[other]? = if text = other then some a else shard.atoms[other]? := by
  rw [add, Std.TreeMap.getElem?_insert]
  simp only [Std.LawfulEqOrd.compare_eq_iff_eq]

theorem getElem?_strings_add (shard : Shard) (text : String) (a : Atom) (slot : Nat) :
    (shard.add text a).strings[slot]? = if slot = shard.strings.size then some text else shard.strings[slot]? :=
  Array.getElem?_push

/-- A string has an atom exactly if it is there, and then that of its place. -/
def Agrees (shard : Shard) (number : Fin 16) : Prop :=
  ∀ (text : String) (a : Atom),
    shard.atoms[text]? = some a ↔ ∃ slot : Nat, shard.strings[slot]? = some text ∧ a = .pack number slot

theorem agrees_empty (number : Fin 16) : empty.Agrees number := by
  intro text a
  rw [getElem?_atoms_empty]
  simp [empty]

theorem Agrees.mem_iff (h : shard.Agrees number) (text : String) :
    text ∈ shard.strings ↔ ∃ a, shard.atoms[text]? = some a := by
  rw [Array.mem_iff_getElem?]
  constructor
  · rintro ⟨slot, hslot⟩
    exact ⟨.pack number slot, (h text _).2 ⟨slot, hslot, rfl⟩⟩
  · rintro ⟨a, ha⟩
    obtain ⟨slot, hslot, _⟩ := (h text a).1 ha
    exact ⟨slot, hslot⟩

theorem Agrees.add (h : shard.Agrees number) {text : String} (hnew : shard.atoms[text]? = none) :
    (shard.add text (.pack number shard.strings.size)).Agrees number := by
  have hout : text ∉ shard.strings := by simp [h.mem_iff, hnew]
  intro other a
  rw [getElem?_atoms_add]
  simp only [getElem?_strings_add]
  by_cases heq : text = other
  · subst heq
    rw [if_pos rfl]
    constructor
    · intro ha
      exact ⟨shard.strings.size, if_pos rfl, (Option.some.inj ha).symm⟩
    · rintro ⟨slot, hslot, rfl⟩
      by_cases hsize : slot = shard.strings.size
      · rw [hsize]
      · rw [if_neg hsize] at hslot
        exact absurd (Array.mem_of_getElem? hslot) hout
  · rw [if_neg heq, h other a]
    refine exists_congr fun slot => and_congr_left fun _ => ?_
    by_cases hsize : slot = shard.strings.size
    · simp [hsize, heq]
    · rw [if_neg hsize]

/-- No string is there twice, as long as there are atoms for all of them. -/
theorem Agrees.slot_unique (h : shard.Agrees number) (hbounded : shard.strings.size ≤ shardCapacity)
    {slot slot' : Nat} {text : String} (hs : shard.strings[slot]? = some text)
    (hs' : shard.strings[slot']? = some text) : slot = slot' := by
  have hlt := (Array.getElem?_eq_some_iff.1 hs).1
  have hlt' := (Array.getElem?_eq_some_iff.1 hs').1
  have ha := (h text _).2 ⟨slot, hs, rfl⟩
  have ha' := (h text _).2 ⟨slot', hs', rfl⟩
  have heq : Atom.pack number slot = .pack number slot' := Option.some.inj (ha.symm.trans ha')
  calc slot = (Atom.pack number slot).slot := (Atom.slot_pack number (by omega)).symm
    _ = (Atom.pack number slot').slot := by rw [heq]
    _ = slot' := Atom.slot_pack number (by omega)

end Shard

namespace Interner

variable {shardOf : String → Fin 16}

/-! ## What interning adds -/

/-- Every shard of the second starts with the strings that the first has in it, and has the same atoms for them. -/
def Extends (i j : Interner shardOf) : Prop :=
  ∀ n, (∃ added, (j.shards.get n).strings = (i.shards.get n).strings ++ added) ∧
    ∀ (text : String) (a : Atom), (i.shards.get n).atoms[text]? = some a → (j.shards.get n).atoms[text]? = some a

theorem Extends.refl (i : Interner shardOf) : i.Extends i := fun _ => ⟨⟨#[], by simp⟩, fun _ _ h => h⟩

theorem Extends.trans {i j k : Interner shardOf} (h : i.Extends j) (h' : j.Extends k) : i.Extends k := by
  intro n
  obtain ⟨⟨added, hadded⟩, hatoms⟩ := h n
  obtain ⟨⟨added', hadded'⟩, hatoms'⟩ := h' n
  refine ⟨⟨added ++ added', ?_⟩, fun text a ha => hatoms' text a (hatoms text a ha)⟩
  rw [hadded', hadded, Array.append_assoc]

theorem get_set (shards : Vector Shard 16) (n other : Fin 16) (shard : Shard) :
    (shards.set n shard).get other = if n = other then shard else shards.get other := by
  have hget : (shards.set n shard)[other.val] = if n.val = other.val then shard else shards[other.val] :=
    Vector.getElem_set n.isLt other.isLt
  simp only [Fin.ext_iff]
  exact hget

theorem get_new (n : Fin 16) :
    (new : Interner shardOf).shards.get n = if Atom.null.shard = n then Shard.empty.add "" .null else .empty := by
  have hempty : (Vector.replicate 16 Shard.empty).get n = .empty := Vector.getElem_replicate n.isLt
  have h := get_set (Vector.replicate 16 .empty) 0 n (Shard.empty.add "" .null)
  rwa [hempty] at h

/-- The string has no atom yet, and there is room for it in its shard. -/
structure Fits (i : Interner shardOf) (text : String) : Prop where
  nonempty : text ≠ ""
  new : (i.shards.get (shardOf text)).atoms[text]? = none
  room : (i.shards.get (shardOf text)).strings.size < shardCapacity

/-- The atom of the place at the end of the string's shard. -/
def nextAtom (i : Interner shardOf) (text : String) : Atom :=
  .pack (shardOf text) (i.shards.get (shardOf text)).strings.size

theorem intern_of_fits {i : Interner shardOf} {text : String} (h : i.Fits text) :
    i.intern text = (i.nextAtom text,
      ⟨i.shards.set (shardOf text) ((i.shards.get (shardOf text)).add text (i.nextAtom text)) (shardOf text).isLt⟩) := by
  have hlookup : i.lookup text = none := by rw [lookup, if_neg h.nonempty, h.new]
  rw [intern, hlookup]
  exact if_pos h.room

theorem get_intern {i : Interner shardOf} {text : String} (h : i.Fits text) (n : Fin 16) :
    (i.intern text).2.shards.get n =
      if shardOf text = n then (i.shards.get n).add text (i.nextAtom text) else i.shards.get n := by
  rw [intern_of_fits h, get_set]
  by_cases hn : shardOf text = n
  · rw [if_pos hn, if_pos hn, hn]
  · rw [if_neg hn, if_neg hn]

/-- All that interning can do: nothing, or put the string at the end of its shard under the atom of this place. -/
theorem intern_cases (i : Interner shardOf) (text : String) : (i.intern text).2 = i ∨ i.Fits text := by
  by_cases hempty : text = ""
  · simp [intern, lookup, hempty]
  · cases hatom : (i.shards.get (shardOf text)).atoms[text]? with
    | some a => simp [intern, lookup, hempty, hatom]
    | none =>
      by_cases hroom : (i.shards.get (shardOf text)).strings.size < shardCapacity
      · exact .inr ⟨hempty, hatom, hroom⟩
      · simp [intern, lookup, hempty, hatom, hroom]

theorem extends_intern (i : Interner shardOf) (text : String) : i.Extends (i.intern text).2 := by
  rcases i.intern_cases text with heq | hfits
  · rw [heq]
    exact .refl i
  · intro n
    rw [get_intern hfits]
    by_cases hn : shardOf text = n
    · subst hn
      rw [if_pos rfl]
      refine ⟨⟨#[text], by simp [Shard.add]⟩, fun other a ha => ?_⟩
      have hne : text ≠ other := by
        rintro rfl
        simp [hfits.new] at ha
      rw [Shard.getElem?_atoms_add, if_neg hne]
      exact ha
    · rw [if_neg hn]
      exact ⟨⟨#[], by simp⟩, fun _ _ h => h⟩

/-- The interner after these strings, one after the other. -/
def internAll (i : Interner shardOf) (texts : List String) : Interner shardOf :=
  texts.foldl (fun i text => (i.intern text).2) i

theorem extends_internAll (i : Interner shardOf) (texts : List String) : i.Extends (i.internAll texts) := by
  induction texts generalizing i with
  | nil => exact .refl i
  | cons text texts ih => exact (i.extends_intern text).trans (ih (i.intern text).2)

theorem Extends.lookup {i j : Interner shardOf} (h : i.Extends j) {text : String} {a : Atom}
    (ha : i.lookup text = some a) : j.lookup text = some a := by
  unfold Interner.lookup at ha ⊢
  by_cases hempty : text = ""
  · rw [if_pos hempty] at ha ⊢
    exact ha
  · rw [if_neg hempty] at ha ⊢
    exact (h (shardOf text)).2 text a ha

theorem Extends.resolve? {i j : Interner shardOf} (h : i.Extends j) {a : Atom} {text : String}
    (ha : i.resolve? a = some text) : j.resolve? a = some text := by
  obtain ⟨⟨added, hadded⟩, _⟩ := h a.shard
  unfold Interner.resolve? at ha ⊢
  obtain ⟨hlt, _⟩ := Array.getElem?_eq_some_iff.1 ha
  rw [hadded, Array.getElem?_append_left hlt]
  exact ha

/-! ## Atoms and strings -/

/-- Maps and lists agree, the empty string is where its atom says, and no shard has more strings than there are atoms
for. -/
structure Sound (i : Interner shardOf) : Prop where
  agrees : ∀ n, (i.shards.get n).Agrees n
  empty : i.resolve? .null = some ""
  bounded : ∀ n, (i.shards.get n).strings.size ≤ shardCapacity

theorem sound_new : (new : Interner shardOf).Sound := by
  refine ⟨fun n => ?_, rfl, fun n => ?_⟩
  · rw [get_new]
    by_cases hn : Atom.null.shard = n
    · rw [if_pos hn, ← hn]
      exact (Shard.agrees_empty Atom.null.shard).add (Shard.getElem?_atoms_empty "")
    · rw [if_neg hn]
      exact Shard.agrees_empty n
  · rw [get_new]
    split <;> simp [Shard.add, Shard.empty, shardCapacity]

theorem Sound.intern {i : Interner shardOf} (h : i.Sound) (text : String) : (i.intern text).2.Sound := by
  rcases i.intern_cases text with heq | hfits
  · rw [heq]
    exact h
  · refine ⟨fun n => ?_, (i.extends_intern text).resolve? h.empty, fun n => ?_⟩
    · rw [get_intern hfits]
      by_cases hn : shardOf text = n
      · subst hn
        rw [if_pos rfl]
        exact (h.agrees _).add hfits.new
      · rw [if_neg hn]
        exact h.agrees n
    · rw [get_intern hfits]
      by_cases hn : shardOf text = n
      · subst hn
        rw [if_pos rfl, Shard.add, Array.size_push]
        exact hfits.room
      · rw [if_neg hn]
        exact h.bounded n

theorem Sound.internAll {i : Interner shardOf} (h : i.Sound) (texts : List String) : (i.internAll texts).Sound := by
  induction texts generalizing i with
  | nil => exact h
  | cons text texts ih => exact ih (h.intern text)

/-- An atom that a shard has for a string is resolved to it. -/
theorem Sound.resolve?_of_atom {i : Interner shardOf} (h : i.Sound) {n : Fin 16} {text : String} {a : Atom}
    (ha : (i.shards.get n).atoms[text]? = some a) : a.shard = n ∧ i.resolve? a = some text := by
  obtain ⟨slot, hslot, rfl⟩ := (h.agrees n text a).1 ha
  have hlt := (Array.getElem?_eq_some_iff.1 hslot).1
  have hcap : slot < shardCapacity := Nat.lt_of_lt_of_le hlt (h.bounded n)
  rw [Interner.resolve?, Atom.shard_pack n hcap, Atom.slot_pack n hcap]
  exact ⟨rfl, hslot⟩

/-- What has an atom is what the atom resolves to. -/
theorem Sound.resolve?_of_lookup {i : Interner shardOf} (h : i.Sound) {text : String} {a : Atom}
    (ha : i.lookup text = some a) : i.resolve? a = some text := by
  unfold lookup at ha
  by_cases hempty : text = ""
  · rw [if_pos hempty] at ha
    rw [← Option.some.inj ha, hempty]
    exact h.empty
  · rw [if_neg hempty] at ha
    exact (h.resolve?_of_atom ha).2

end Interner

end Generics
