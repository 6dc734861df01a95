import Generics.Key.Basic
import Generics.Proofs.Sameness
import Generics.Proofs.WellFormed

/-! # Which keys there are

`Key.freeze_eq_ok_iff` says of which descriptors a key is made, and which one. -/

namespace Generics.Key
set_option autoImplicit false

open Result

instance : EquivBEq Key where
  rfl := BEq.rfl (α := Descriptor)
  symm := BEq.symm (α := Descriptor)
  trans := BEq.trans (α := Descriptor)

def MadeIn (s : Store) (k : Key) : Prop := ∃ d allowVars, freeze s d allowVars = .ok k

theorem vars_eq_nil_iff {d : Descriptor} : d.vars = [] ↔ d.findVar? (fun _ => true) = none := by
  rw [Descriptor.findVar?_eq]
  cases d.vars <;> simp

theorem checkResolved_eq_ok_iff {s : Store} {d : Descriptor} : checkResolved s d = .ok () ↔ d.vars = [] := by
  rw [vars_eq_nil_iff]
  unfold checkResolved
  cases d.findVar? fun _ => true with
  | none => exact ⟨fun _ => rfl, fun _ => rfl⟩
  | some v =>
    constructor
    · intro h
      cases h
    · intro h
      cases h

theorem freeze_eq_ok_iff {s : Store} {d : Descriptor} {allowVars : Bool} {k : Key} :
    freeze s d allowVars = .ok k ↔
      s.WellFormed d ∧ (allowVars = false → d.vars = []) ∧
        ∃ c, d.raw? = some c ∧ k = ⟨d, c, s.text d, allowVars && d.hasVars⟩ := by
  rw [freeze, bind_eq_ok_iff]
  simp only [Store.rawOf_eq_ok_iff, bind_eq_ok_iff (x := s.checkArity d), ← Store.checkArity_eq_ok_iff]
  cases allowVars with
  | true =>
    constructor
    · rintro ⟨c, hraw, _, hwf, hk⟩
      exact ⟨hwf, fun h => (by cases h), c, hraw, (Except.ok.inj hk).symm⟩
    · rintro ⟨hwf, _, c, hraw, rfl⟩
      exact ⟨c, hraw, (), hwf, rfl⟩
  | false =>
    constructor
    · rintro ⟨c, hraw, _, hwf, hk⟩
      obtain ⟨_, hresolved, hk⟩ := bind_eq_ok_iff.1 hk
      exact ⟨hwf, fun _ => checkResolved_eq_ok_iff.1 hresolved, c, hraw, (Except.ok.inj hk).symm⟩
    · rintro ⟨hwf, hresolved, c, hraw, rfl⟩
      exact ⟨c, hraw, (), hwf, bind_eq_ok_iff.2 ⟨(), checkResolved_eq_ok_iff.2 (hresolved rfl), rfl⟩⟩

theorem MadeIn.raw?_eq {s : Store} {k : Key} (h : k.MadeIn s) : k.descriptor.raw? = some k.raw := by
  obtain ⟨d, allowVars, hfreeze⟩ := h
  obtain ⟨_, _, c, hraw, rfl⟩ := freeze_eq_ok_iff.1 hfreeze
  exact hraw

theorem MadeIn.wellFormed {s : Store} {k : Key} (h : k.MadeIn s) : s.WellFormed k.descriptor := by
  obtain ⟨d, allowVars, hfreeze⟩ := h
  obtain ⟨hwf, _, c, _, rfl⟩ := freeze_eq_ok_iff.1 hfreeze
  exact hwf

theorem MadeIn.closed {s : Store} {k : Key} (h : k.MadeIn s) (hk : k.isPartial = false) :
    k.descriptor.vars = [] := by
  obtain ⟨d, allowVars, hfreeze⟩ := h
  obtain ⟨_, hresolved, c, _, rfl⟩ := freeze_eq_ok_iff.1 hfreeze
  cases allowVars with
  | false => exact hresolved rfl
  | true => simpa [Descriptor.hasVars_eq] using hk

theorem MadeIn.isPartial_eq_false {s : Store} {k : Key} (h : k.MadeIn s) (hk : k.descriptor.vars = []) :
    k.isPartial = false := by
  obtain ⟨d, allowVars, hfreeze⟩ := h
  obtain ⟨_, _, c, _, rfl⟩ := freeze_eq_ok_iff.1 hfreeze
  simp [Descriptor.hasVars_eq, hk]

end Generics.Key
