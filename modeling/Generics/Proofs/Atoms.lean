import Mathlib.Algebra.BigOperators.Fin
import Mathlib.Algebra.BigOperators.Group.Finset.Basic
import Generics.Proofs.Interning

/-! # Atoms and strings are one to one

As long as no shard has to hold more strings than it has room for, an interner holds exactly the strings that were
interned, each in the shard that it belongs to, and the empty string (`Interner.Holds`). The map and the list of each
shard agree, so finding the atom of a string and finding the string of an atom undo each other (`Holds.lookup_eq_iff`),
and all else that can be said of the atoms handed out follows from that. -/

namespace Generics
set_option autoImplicit false

theorem Atom.pack_shard_slot (a : Atom) : pack a.shard a.slot = a := by
  have hlt : a.index.toNat < 4294967296 := a.index.toNat_lt
  have hsum : a.slot * 16 + a.shard.val = a.index.toNat := by
    simp only [Atom.slot, Atom.shard]
    omega
  rw [pack, hsum]
  simp

namespace Interner

variable {shardOf : String → Fin 16}

/-! ## What the shards should hold -/

/-- The shard of a string. The empty one lies in that of its atom, whatever the function says. -/
def homeOf (shardOf : String → Fin 16) (text : String) : Fin 16 :=
  if text = "" then Atom.null.shard else shardOf text

/-- The strings that a shard has to hold when these were interned. -/
def shelf (shardOf : String → Fin 16) (texts : List String) (shard : Fin 16) : Finset String :=
  {text ∈ insert "" texts.toFinset | homeOf shardOf text = shard}

/-- Every shard has room for the strings that it has to hold. -/
def Roomy (shardOf : String → Fin 16) (texts : List String) : Prop :=
  ∀ shard, (shelf shardOf texts shard).card ≤ shardCapacity

theorem mem_shelf {texts : List String} {shard : Fin 16} {text : String} :
    text ∈ shelf shardOf texts shard ↔ homeOf shardOf text = shard ∧ (text = "" ∨ text ∈ texts) := by
  simp [shelf, and_comm]

theorem shelf_subset {texts more : List String} (h : texts ⊆ more) (shard : Fin 16) :
    shelf shardOf texts shard ⊆ shelf shardOf more shard := by
  intro text htext
  rw [mem_shelf] at htext ⊢
  exact ⟨htext.1, htext.2.imp_right fun hmem => h hmem⟩

theorem Roomy.subset {texts more : List String} (h : Roomy shardOf more) (hsub : texts ⊆ more) :
    Roomy shardOf texts :=
  fun shard => (Finset.card_le_card (shelf_subset hsub shard)).trans (h shard)

/-! ## What they do hold -/

/-- The interner is sound and holds the empty string and these strings, each in its shard. -/
structure Holds (i : Interner shardOf) (texts : List String) : Prop extends Sound i where
  mem : ∀ n text, text ∈ (i.shards.get n).strings ↔ homeOf shardOf text = n ∧ (text = "" ∨ text ∈ texts)

theorem holds_new : (new : Interner shardOf).Holds [] := by
  refine ⟨sound_new, fun n text => ?_⟩
  rw [get_new]
  by_cases hempty : text = ""
  · by_cases hn : Atom.null.shard = n <;> simp [homeOf, hempty, hn, Shard.add, Shard.empty]
  · by_cases hn : Atom.null.shard = n <;> simp [hempty, hn, Shard.add, Shard.empty]

section Holds

variable {i : Interner shardOf} {texts : List String}

theorem Holds.nodup (h : i.Holds texts) (n : Fin 16) : (i.shards.get n).strings.toList.Nodup := by
  rw [List.nodup_iff_injective_get]
  intro slot slot' heq
  have hget : ∀ slot, (i.shards.get n).strings[slot.val]? = some ((i.shards.get n).strings.toList.get slot) := by simp
  exact Fin.ext ((h.agrees n).slot_unique (h.bounded n) (hget slot) (heq ▸ hget slot'))

theorem Holds.toFinset_eq (h : i.Holds texts) (n : Fin 16) :
    (i.shards.get n).strings.toList.toFinset = shelf shardOf texts n := by
  ext text
  rw [List.mem_toFinset, Array.mem_toList_iff, h.mem, mem_shelf]

theorem Holds.size_shard (h : i.Holds texts) (n : Fin 16) :
    (i.shards.get n).strings.size = (shelf shardOf texts n).card := by
  rw [← h.toFinset_eq n, List.toFinset_card_of_nodup (h.nodup n), Array.length_toList]

/-- A shard has atoms for the strings that it holds. -/
theorem Holds.exists_atom_iff (h : i.Holds texts) (n : Fin 16) (text : String) :
    (∃ a, (i.shards.get n).atoms[text]? = some a) ↔ homeOf shardOf text = n ∧ (text = "" ∨ text ∈ texts) := by
  rw [← (h.agrees n).mem_iff, h.mem]

theorem Holds.lookup_isSome (h : i.Holds texts) {text : String} (ht : text = "" ∨ text ∈ texts) :
    ∃ a, i.lookup text = some a := by
  unfold lookup
  by_cases hempty : text = ""
  · exact ⟨.null, if_pos hempty⟩
  · rw [if_neg hempty, h.exists_atom_iff]
    exact ⟨if_neg hempty, ht⟩

/-- Finding the atom of a string and finding the string of an atom undo each other. -/
theorem Holds.lookup_eq_iff (h : i.Holds texts) {text : String} {a : Atom} :
    i.lookup text = some a ↔ i.resolve? a = some text := by
  refine ⟨h.resolve?_of_lookup, fun ha => ?_⟩
  obtain ⟨hhome, htext⟩ := (h.mem _ _).1 (Array.mem_of_getElem? ha)
  obtain ⟨b, hb⟩ := h.lookup_isSome htext
  have hresolve := h.resolve?_of_lookup hb
  -- both atoms lead to the string, in the one shard that it belongs to
  have hshard : b.shard = a.shard := by
    rw [← ((h.mem _ _).1 (Array.mem_of_getElem? hresolve)).1, hhome]
  have hslot : b.slot = a.slot := by
    rw [resolve?, hshard] at hresolve
    exact (h.agrees _).slot_unique (h.bounded _) hresolve ha
  rw [hb, ← b.pack_shard_slot, hshard, hslot, a.pack_shard_slot]

/-- The map of a shard has a string under an atom exactly if the string belongs there and is found under it. -/
theorem Holds.atom_iff (h : i.Holds texts) (n : Fin 16) (text : String) (a : Atom) :
    (i.shards.get n).atoms[text]? = some a ↔ homeOf shardOf text = n ∧ i.lookup text = some a := by
  constructor
  · intro ha
    exact ⟨((h.exists_atom_iff n text).1 ⟨a, ha⟩).1, h.lookup_eq_iff.2 (h.resolve?_of_atom ha).2⟩
  · rintro ⟨hhome, ha⟩
    have hresolve := h.lookup_eq_iff.1 ha
    obtain ⟨hshard, htext⟩ := (h.mem _ _).1 (Array.mem_of_getElem? hresolve)
    obtain ⟨b, hb⟩ := (h.exists_atom_iff n text).2 ⟨hhome, htext⟩
    have heq : some b = some a := by
      rw [← h.lookup_eq_iff.2 (h.resolve?_of_atom hb).2, ha]
    rw [hb, heq]

/-! ## What interning adds -/

theorem Holds.lookup_eq_none (h : i.Holds texts) {text : String}
    (hnone : i.lookup text = none) : text ≠ "" ∧ text ∉ texts := by
  rw [← not_or]
  intro htext
  obtain ⟨a, ha⟩ := h.lookup_isSome htext
  rw [hnone] at ha
  cases ha

/-- A string that is not there yet finds room, if all of them have it. -/
theorem Holds.fits (h : i.Holds texts) {text : String} (hroom : Roomy shardOf (texts ++ [text]))
    (hnone : i.lookup text = none) : i.Fits text := by
  obtain ⟨hne, hnew⟩ := h.lookup_eq_none hnone
  have hhome : homeOf shardOf text = shardOf text := if_neg hne
  have hmem : text ∈ shelf shardOf (texts ++ [text]) (shardOf text) := mem_shelf.2 ⟨hhome, .inr (by simp)⟩
  have hout : text ∉ shelf shardOf texts (shardOf text) := by simp [mem_shelf, hne, hnew]
  have hsub : shelf shardOf texts (shardOf text) ⊂ shelf shardOf (texts ++ [text]) (shardOf text) :=
    (Finset.ssubset_iff_of_subset (shelf_subset (List.subset_append_left _ _) _)).2 ⟨text, hmem, hout⟩
  refine ⟨hne, by simpa [lookup, hne] using hnone, ?_⟩
  rw [h.size_shard]
  exact (Finset.card_lt_card hsub).trans_le (hroom _)

/-- All that interning can do where there is room: nothing, for a string that is there, or put a new one at the end
of its shard. -/
theorem Holds.intern_cases (h : i.Holds texts) {text : String} (hroom : Roomy shardOf (texts ++ [text])) :
    (i.intern text).2 = i ∧ i.lookup text = some (i.intern text).1 ∧ (text = "" ∨ text ∈ texts) ∨ i.Fits text := by
  cases hlookup : i.lookup text with
  | some a =>
    have hmem := Array.mem_of_getElem? (h.resolve?_of_lookup hlookup)
    have heq : i.intern text = (a, i) := by rw [intern, hlookup]
    rw [heq]
    exact .inl ⟨rfl, rfl, ((h.mem _ _).1 hmem).2⟩
  | none => exact .inr (h.fits hroom hlookup)

theorem Holds.intern (h : i.Holds texts) {text : String} (hroom : Roomy shardOf (texts ++ [text])) :
    (i.intern text).2.Holds (texts ++ [text]) := by
  refine ⟨h.toSound.intern text, fun n other => ?_⟩
  simp only [List.mem_append, List.mem_singleton]
  rcases h.intern_cases hroom with ⟨heq, _, hold⟩ | hfits
  · rw [heq, h.mem]
    refine and_congr_right fun _ => ⟨fun hother => hother.imp_right .inl, ?_⟩
    rintro (hother | hother | rfl)
    · exact .inl hother
    · exact .inr hother
    · exact hold
  · have hhome : homeOf shardOf text = shardOf text := if_neg hfits.nonempty
    rw [get_intern hfits]
    by_cases hn : shardOf text = n
    · rw [if_pos hn, Shard.add, Array.mem_push, h.mem]
      constructor
      · rintro (⟨hin, hother⟩ | rfl)
        · exact ⟨hin, hother.imp_right .inl⟩
        · exact ⟨hhome.trans hn, .inr (.inr rfl)⟩
      · rintro ⟨hin, hother | hother | hother⟩
        · exact .inl ⟨hin, .inl hother⟩
        · exact .inl ⟨hin, .inr hother⟩
        · exact .inr hother
    · rw [if_neg hn, h.mem]
      refine and_congr_right fun hin => ⟨fun hother => hother.imp_right .inl, ?_⟩
      rintro (hother | hother | rfl)
      · exact .inl hother
      · exact .inr hother
      · exact absurd (hhome.symm.trans hin) hn

/-- The atom that interning gives is the one that is found from then on. -/
theorem Holds.lookup_intern (h : i.Holds texts) {text : String} (hroom : Roomy shardOf (texts ++ [text])) :
    (i.intern text).2.lookup text = some (i.intern text).1 := by
  rcases h.intern_cases hroom with ⟨heq, hlookup, _⟩ | hfits
  · rw [heq]
    exact hlookup
  · rw [lookup, if_neg hfits.nonempty, get_intern hfits, if_pos rfl, Shard.getElem?_atoms_add, if_pos rfl,
      intern_of_fits hfits]

end Holds

/-! ## Whole runs -/

/-- One use of an interner. -/
inductive Call
  | intern (text : String)
  | lookup (text : String)
  | resolve (a : Atom)

def Call.interned? : Call → Option String
  | .intern text => some text
  | .lookup _ => none
  | .resolve _ => none

/-- The strings interned by these calls, one for each call that interns. -/
def interned (calls : List Call) : List String := calls.filterMap Call.interned?

/-- The interner after a call. Only interning has one to give. -/
def step (i : Interner shardOf) : Call → Interner shardOf
  | .intern text => (i.intern text).2
  | .lookup _ => i
  | .resolve _ => i

def after (i : Interner shardOf) (calls : List Call) : Interner shardOf := calls.foldl step i

/-- The strings interned by these calls, with the atoms that they were given. -/
def handed (i : Interner shardOf) : List Call → List (String × Atom)
  | [] => []
  | .intern text :: calls => (text, (i.intern text).1) :: (i.intern text).2.handed calls
  | .lookup _ :: calls => i.handed calls
  | .resolve _ :: calls => i.handed calls

/-- The calls gave the atom for the string, or both are there from the start. -/
def Issued (shardOf : String → Fin 16) (calls : List Call) (text : String) (a : Atom) : Prop :=
  (text = "" ∧ a = .null) ∨ (text, a) ∈ (new : Interner shardOf).handed calls

theorem after_eq_internAll (i : Interner shardOf) (calls : List Call) :
    i.after calls = i.internAll (interned calls) := by
  induction calls generalizing i with
  | nil => rfl
  | cons call calls ih =>
    cases call with
    | intern text => exact ih (i.intern text).2
    | lookup text => exact ih i
    | resolve a => exact ih i

theorem extends_after (i : Interner shardOf) (calls : List Call) : i.Extends (i.after calls) := by
  rw [after_eq_internAll]
  exact i.extends_internAll _

theorem map_fst_handed (i : Interner shardOf) (calls : List Call) :
    (i.handed calls).map Prod.fst = interned calls := by
  induction calls generalizing i with
  | nil => rfl
  | cons call calls ih =>
    cases call with
    | intern text => exact congrArg (text :: ·) (ih (i.intern text).2)
    | lookup text => exact ih i
    | resolve a => exact ih i

theorem append_interned_cons (texts : List String) (text : String) (calls : List Call) :
    texts ++ interned (.intern text :: calls) = (texts ++ [text]) ++ interned calls := by
  rw [List.append_assoc]
  rfl

section Run

variable {i : Interner shardOf} {texts : List String} {calls : List Call}

theorem Holds.after (h : i.Holds texts) (hroom : Roomy shardOf (texts ++ interned calls)) :
    (i.after calls).Holds (texts ++ interned calls) := by
  induction calls generalizing i texts with
  | nil =>
    rw [interned, List.filterMap_nil, List.append_nil]
    exact h
  | cons call calls ih =>
    cases call with
    | intern text =>
      rw [append_interned_cons] at hroom ⊢
      exact ih (h.intern (hroom.subset (List.subset_append_left _ _))) hroom
    | lookup text => exact ih h hroom
    | resolve a => exact ih h hroom

/-- What was handed out is found at the end. -/
theorem Holds.lookup_of_handed (h : i.Holds texts) (hroom : Roomy shardOf (texts ++ interned calls)) :
    ∀ p ∈ i.handed calls, (i.after calls).lookup p.1 = some p.2 := by
  induction calls generalizing i texts with
  | nil => simp [handed]
  | cons call calls ih =>
    cases call with
    | intern text =>
      rw [append_interned_cons] at hroom
      have hroom' : Roomy shardOf (texts ++ [text]) := hroom.subset (List.subset_append_left _ _)
      refine List.forall_mem_cons.2 ⟨?_, ih (h.intern hroom') hroom⟩
      exact ((i.intern text).2.extends_after calls).lookup (h.lookup_intern hroom')
    | lookup text => exact ih h hroom
    | resolve a => exact ih h hroom

theorem size_eq_sum (i : Interner shardOf) : i.size = ∑ n, (i.shards.get n).strings.size := by
  have hlist : i.shards.toList = List.ofFn i.shards.get := by
    refine List.ext_getElem (by simp) fun n hn hn' => ?_
    rw [List.getElem_ofFn, Vector.getElem_toList]
    rfl
  have hfold : i.size = (i.shards.toList.map fun shard => shard.strings.size).sum := by
    rw [size, List.sum_eq_foldl, List.foldl_map]
  rw [hfold, hlist, List.map_ofFn, List.sum_ofFn]
  rfl

theorem Holds.size_eq (h : i.Holds texts) : i.size = (texts.toFinset.erase "").card + 1 := by
  have hfibers : (insert "" texts.toFinset).card = ∑ shard, (shelf shardOf texts shard).card :=
    Finset.card_eq_sum_card_fiberwise fun _ _ => Finset.mem_coe.2 (Finset.mem_univ _)
  have hcard : (texts.toFinset.erase "").card + 1 = (insert "" texts.toFinset).card := by
    rw [← Finset.erase_insert_eq_erase]
    exact Finset.card_erase_add_one (Finset.mem_insert_self _ _)
  rw [size_eq_sum, Finset.sum_congr rfl fun shard _ => h.size_shard shard, ← hfibers, hcard]

/-- What is held is found, and nothing else is. -/
theorem Holds.lookup_isSome_iff (h : i.Holds texts) (text : String) :
    (i.lookup text).isSome ↔ text = "" ∨ text ∈ texts := by
  refine ⟨fun hsome => ?_, fun htext => Option.isSome_iff_exists.2 (h.lookup_isSome htext)⟩
  obtain ⟨a, ha⟩ := Option.isSome_iff_exists.1 hsome
  have hmem := Array.mem_of_getElem? (h.lookup_eq_iff.1 ha)
  exact ((h.mem _ _).1 hmem).2

theorem Holds.atom_eq_iff (h : i.Holds texts) {text text' : String} {a a' : Atom}
    (ha : i.lookup text = some a) (ha' : i.lookup text' = some a') : a = a' ↔ text = text' := by
  constructor
  · rintro rfl
    rw [h.lookup_eq_iff] at ha ha'
    exact Option.some.inj (ha.symm.trans ha')
  · rintro rfl
    exact Option.some.inj (ha.symm.trans ha')

theorem lookup_after_eq_iff (hroom : Roomy shardOf (interned calls)) (text : String) (a : Atom) :
    ((new : Interner shardOf).after calls).lookup text = some a ↔ Issued shardOf calls text a := by
  have hholds := holds_new.after hroom
  have hhanded := holds_new.lookup_of_handed hroom
  constructor
  · intro h
    have hsome : (((new : Interner shardOf).after calls).lookup text).isSome := by rw [h]; rfl
    rcases (hholds.lookup_isSome_iff text).1 hsome with rfl | hmem
    · cases h
      exact .inl ⟨rfl, rfl⟩
    · change text ∈ interned calls at hmem
      rw [← map_fst_handed (new : Interner shardOf)] at hmem
      obtain ⟨p, hp, rfl⟩ := List.mem_map.1 hmem
      have hatom : p.2 = a := Option.some.inj ((hhanded p hp).symm.trans h)
      exact .inr (hatom ▸ hp)
  · rintro (⟨rfl, rfl⟩ | hmem)
    · rfl
    · exact hhanded _ hmem

end Run

/-- Strings and their atoms are one to one, from the call that hands the atom out to the end of all calls, and the maps
and lists of all shards tell of the same atoms. -/
theorem atoms_stable_bijection (shardOf : String → Fin 16) (calls : List Call)
    (hroom : Roomy shardOf (interned calls)) (i : Interner shardOf) (hi : i = new.after calls)
    (log : List (String × Atom)) (hlog : log = (new : Interner shardOf).handed calls) :
    log.map Prod.fst = interned calls ∧
      (∀ p ∈ log, ∀ q ∈ log, p.2 = q.2 ↔ p.1 = q.1) ∧
      (∀ p ∈ log, p.2 = .null ↔ p.1 = "") ∧
      (∀ text, (i.lookup text).isSome ↔ text = "" ∨ text ∈ interned calls) ∧
      (∀ text a, i.lookup text = some a ↔ Issued shardOf calls text a) ∧
      (∀ text a, i.resolve? a = some text ↔ Issued shardOf calls text a) ∧
      (∀ later text a, Issued shardOf calls text a →
        (i.after later).lookup text = some a ∧ (i.after later).resolve? a = some text) ∧
      i.size = ((interned calls).toFinset.erase "").card + 1 ∧
      (∀ n, (i.shards.get n).strings.size = (shelf shardOf (interned calls) n).card) ∧
      (∀ n, (i.shards.get n).Agrees n) ∧
      (∀ n (text : String) a,
        (i.shards.get n).atoms[text]? = some a ↔ homeOf shardOf text = n ∧ Issued shardOf calls text a) ∧
      i = new.internAll (interned calls) := by
  have hholds : i.Holds (interned calls) := hi ▸ holds_new.after hroom
  have hhanded : ∀ p ∈ log, i.lookup p.1 = some p.2 := hi ▸ hlog ▸ holds_new.lookup_of_handed hroom
  have hlookup : ∀ text a, i.lookup text = some a ↔ Issued shardOf calls text a := hi ▸ lookup_after_eq_iff hroom
  have hresolve : ∀ text a, i.resolve? a = some text ↔ Issued shardOf calls text a := fun text a =>
    hholds.lookup_eq_iff.symm.trans (hlookup text a)
  have hempty : i.lookup "" = some .null := rfl
  refine ⟨hlog ▸ map_fst_handed _ _, fun p hp q hq => hholds.atom_eq_iff (hhanded p hp) (hhanded q hq),
    fun p hp => hholds.atom_eq_iff (hhanded p hp) hempty, hholds.lookup_isSome_iff, hlookup, hresolve, ?_,
    hholds.size_eq, hholds.size_shard, hholds.agrees, fun n text a => ?_, hi ▸ after_eq_internAll _ _⟩
  · intro later text a h
    have hext := i.extends_after later
    exact ⟨hext.lookup ((hlookup text a).2 h), hext.resolve? ((hresolve text a).2 h)⟩
  · rw [hholds.atom_iff, hlookup]

/-- Two strings and the empty one for a single shard, which are looked for in between. -/
def namings : List Call :=
  [.lookup "T", .intern "Sequence", .intern "", .resolve ⟨32⟩, .intern "T", .intern "Sequence"]

theorem roomy_of_length {texts : List String} (h : texts.length < shardCapacity) : Roomy shardOf texts := by
  intro shard
  have hshelf : (shelf shardOf texts shard).card ≤ (insert "" texts.toFinset).card := Finset.card_filter_le _ _
  have hinsert : (insert "" texts.toFinset).card ≤ texts.toFinset.card + 1 := Finset.card_insert_le _ _
  have htexts : texts.toFinset.card ≤ texts.length := texts.toFinset_card_le
  omega

theorem namings_atoms :
    (new : Interner fun _ => 0).handed namings =
        [("Sequence", ⟨16⟩), ("", ⟨0⟩), ("T", ⟨32⟩), ("Sequence", ⟨16⟩)] ∧
      ((new : Interner fun _ => 0).after namings).size = 3 ∧
      (∀ text, ((new : Interner fun _ => 0).after namings).resolve? ⟨32⟩ = some text ↔
        Issued (fun _ => 0) namings text ⟨32⟩) ∧
      ∀ later, (((new : Interner fun _ => 0).after namings).after later).resolve? ⟨32⟩ = some "T" := by
  have hhanded : (new : Interner fun _ => 0).handed namings =
      [("Sequence", ⟨16⟩), ("", ⟨0⟩), ("T", ⟨32⟩), ("Sequence", ⟨16⟩)] := by decide +kernel
  have hissued : Issued (fun _ => 0) namings "T" ⟨32⟩ := .inr (by rw [hhanded]; decide)
  obtain ⟨_, _, _, _, _, hresolve, hlater, hsize, _⟩ :=
    atoms_stable_bijection (fun _ => 0) namings (roomy_of_length (by decide)) _ rfl _ rfl
  exact ⟨hhanded, hsize.trans (by decide), fun text => hresolve text ⟨32⟩, fun later => (hlater later "T" _ hissued).2⟩

end Interner

end Generics
