import Generics.Store.Basic

/-! # Stores that come about by declarations

`Store.Built` are the stores that the writing operations make of the empty one. No operation takes a class out
(`contains_change`), so the class above all others, which has to be declared when it is chosen, stays
declared. The counter and the classes that are there keep in step (`Store.Numbered`), so that no class is registered
under a number that another one has. -/

namespace Generics
set_option autoImplicit false

/-- One writing operation. -/
inductive Change
  | register (decl : ClassDecl)
  | setSupertypes (c : ClassId) (supertypes : List Descriptor)
  | setBounds (c : ClassId) (param : String) (bounds : List Descriptor)
  | setRoot (c : ClassId)
  | setEnclosing (c enclosing : ClassId)
  | setMethodParams (c : ClassId) (method : String) (params : List TypeParam)

namespace Store

def change (s : Store) : Change → Store
  | .register decl => (s.register decl).2
  | .setSupertypes c supertypes => (s.setSupertypes c supertypes).2
  | .setBounds c param bounds => (s.setBounds c param bounds).2
  | .setRoot c => (s.setRoot c).2
  | .setEnclosing c enclosing => (s.setEnclosing c enclosing).2
  | .setMethodParams c method params => s.setMethodParams c method params

/-- The stores that declarations lead to. -/
inductive Built : Store → Prop
  | empty : Built .empty
  | change {s : Store} (h : Built s) (ch : Change) : Built (s.change ch)

/-- The store that a list of operations makes of the empty one. -/
def built (changes : List Change) : Store := changes.foldl change .empty

theorem built_built (changes : List Change) : (built changes).Built := by
  have h : ∀ s : Store, s.Built → (changes.foldl change s).Built := by
    induction changes with
    | nil => exact fun _ hs => hs
    | cons ch changes ih => exact fun s hs => ih (s.change ch) (hs.change ch)
  exact h .empty .empty

theorem size_update (s : Store) (c : ClassId) (f : ClassDecl → ClassDecl) : (s.update c f).2.size = s.size := by
  unfold update
  split
  · exact Std.TreeMap.size_modify
  · rfl

theorem next_update (s : Store) (c : ClassId) (f : ClassDecl → ClassDecl) : (s.update c f).2.next = s.next := by
  unfold update
  split <;> rfl

theorem contains_update (s : Store) (c : ClassId) (f : ClassDecl → ClassDecl) (x : ClassId) :
    (s.update c f).2.contains x = s.contains x := by
  rw [contains, get?_update]
  by_cases hx : x = c
  · rw [if_pos hx, Option.isSome_map, hx]
    rfl
  · rw [if_neg hx]
    rfl

theorem root_update (s : Store) (c : ClassId) (f : ClassDecl → ClassDecl) : (s.update c f).2.root = s.root := by
  unfold update
  split <;> rfl

theorem size_register (s : Store) (decl : ClassDecl) :
    (s.register decl).2.size = if s.contains s.nextId then s.size else s.size + 1 := by
  have hcontains : s.contains s.nextId = s.classes.contains s.next := Std.TreeMap.contains_eq_isSome_getElem?.symm
  rw [hcontains]
  exact Std.TreeMap.size_insert

theorem contains_register (s : Store) (decl : ClassDecl) (c : ClassId) :
    (s.register decl).2.contains c ↔ c = s.nextId ∨ s.contains c := by
  rw [contains, get?_register]
  by_cases hc : c = s.nextId <;> simp [hc, contains]

theorem size_le_change (s : Store) (ch : Change) : s.size ≤ (s.change ch).size := by
  cases ch with
  | register decl =>
    rw [change, size_register]
    split <;> omega
  | setSupertypes c supertypes => exact Nat.le_of_eq (size_update s c _).symm
  | setBounds c param bounds =>
    simp only [change, setBounds]
    split
    · exact Nat.le_of_eq (size_update s c _).symm
    · exact Nat.le_refl _
  | setRoot c =>
    simp only [change, setRoot]
    split <;> exact Nat.le_refl _
  | setEnclosing c enclosing => exact Nat.le_of_eq (size_update s c _).symm
  | setMethodParams c method params => exact Nat.le_refl _

theorem contains_change {s : Store} {c : ClassId} (h : s.contains c) (ch : Change) : (s.change ch).contains c := by
  cases ch with
  | register decl => exact (s.contains_register decl c).2 (.inr h)
  | setSupertypes x supertypes => exact (s.contains_update x _ c).trans h
  | setBounds x param bounds =>
    simp only [change, setBounds]
    split
    · exact (s.contains_update x _ c).trans h
    · exact h
  | setRoot x =>
    simp only [change, setRoot]
    split <;> exact h
  | setEnclosing x enclosing => exact (s.contains_update x _ c).trans h
  | setMethodParams x method params => exact h

theorem root_change {s : Store} {ch : Change} {r : ClassId} (h : (s.change ch).root = some r) :
    s.root = some r ∨ s.contains r := by
  cases ch with
  | register decl => exact .inl h
  | setSupertypes c supertypes =>
    rw [change, setSupertypes, root_update] at h
    exact .inl h
  | setBounds c param bounds =>
    simp only [change, setBounds] at h
    split at h
    · rw [root_update] at h
      exact .inl h
    · exact .inl h
  | setRoot c =>
    simp only [change, setRoot] at h
    split at h
    · rename_i hc
      cases h
      exact .inr hc
    · exact .inl h
  | setEnclosing c enclosing =>
    rw [change, setEnclosing, root_update] at h
    exact .inl h
  | setMethodParams c method params => exact .inl h

theorem Built.contains_root {s : Store} (h : s.Built) {r : ClassId} (hr : s.root = some r) : s.contains r := by
  induction h generalizing r with
  | empty => cases hr
  | change h ch ih =>
    rcases root_change hr with hr | hr
    · exact contains_change (ih hr) ch
    · exact contains_change hr ch

/-! ## Numbers -/

/-- The numbers given out are those from one on, as many as there are classes, and the counter is at the one after
them. -/
structure Numbered (s : Store) : Prop where
  next : s.next = (s.size + 1).toUInt32
  contains_iff : ∀ c : ClassId, s.contains c ↔ 1 ≤ c.num.toNat ∧ c.num.toNat ≤ s.size

section Numbered

variable {s s' : Store}

theorem numbered_empty : Store.empty.Numbered := by
  refine ⟨rfl, fun c => ?_⟩
  have hnone : Store.empty.get? c = none := Std.TreeMap.getElem?_emptyc
  have hsize : Store.empty.size = 0 := rfl
  rw [contains, hnone, hsize]
  simp
  omega

theorem Numbered.toNat_nextId (h : s.Numbered) (hroom : s.size + 1 < 4294967296) :
    s.nextId.num.toNat = s.size + 1 := by
  rw [nextId, h.next, Nat.toUInt32_eq, UInt32.toNat_ofNat']
  omega

/-- The number that comes next is not given out yet, also when the counter has come round to zero. -/
theorem Numbered.not_contains_nextId (h : s.Numbered) (hsize : s.size < 4294967296) : ¬ s.contains s.nextId := by
  rw [h.contains_iff, nextId, h.next, Nat.toUInt32_eq, UInt32.toNat_ofNat']
  omega

theorem Numbered.size_register (h : s.Numbered) (hsize : s.size < 4294967296) (decl : ClassDecl) :
    (s.register decl).2.size = s.size + 1 := by
  rw [Store.size_register, if_neg (h.not_contains_nextId hsize)]

theorem Numbered.register (h : s.Numbered) (hroom : s.size + 1 < 4294967296) (decl : ClassDecl) :
    (s.register decl).2.Numbered := by
  have hsize := h.size_register (Nat.lt_of_succ_lt hroom) decl
  have hnext := h.toNat_nextId hroom
  constructor
  · rw [hsize]
    show s.next + 1 = (s.size + 1 + 1).toUInt32
    rw [h.next]
    simp
  · intro c
    have hnum : c = s.nextId ↔ c.num.toNat = s.size + 1 := by
      rw [← hnext, UInt32.toNat_inj]
      exact ⟨congrArg ClassId.num, congrArg ClassId.mk⟩
    rw [contains_register, hnum, h.contains_iff, hsize]
    omega

theorem Numbered.of_same (h : s.Numbered) (hnext : s'.next = s.next) (hsize : s'.size = s.size)
    (hcontains : ∀ c, s'.contains c = s.contains c) : s'.Numbered := by
  refine ⟨by rw [hnext, hsize, h.next], fun c => ?_⟩
  rw [hcontains, hsize, h.contains_iff]

theorem Numbered.update (h : s.Numbered) (c : ClassId) (f : ClassDecl → ClassDecl) : (s.update c f).2.Numbered :=
  h.of_same (s.next_update c f) (s.size_update c f) (s.contains_update c f)

/-- Where the classes do not outgrow the numbers, a change keeps to them. -/
theorem Numbered.change (h : s.Numbered) (ch : Change) (hsize : (s.change ch).size < 4294967296) :
    (s.change ch).Numbered := by
  cases ch with
  | register decl =>
    have hroom : s.size < 4294967296 := Nat.lt_of_le_of_lt (s.size_le_change (.register decl)) hsize
    rw [Store.change, h.size_register hroom] at hsize
    exact h.register hsize decl
  | setSupertypes c supertypes => exact h.update c _
  | setBounds c param bounds =>
    simp only [Store.change, setBounds]
    split
    · exact h.update c _
    · exact h
  | setRoot c =>
    simp only [Store.change, setRoot]
    split
    · exact h.of_same rfl rfl fun _ => rfl
    · exact h
  | setEnclosing c enclosing => exact h.update c _
  | setMethodParams c method params => exact h.of_same rfl rfl fun _ => rfl

end Numbered

end Store

end Generics
