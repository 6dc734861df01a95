import Generics.Actualization.Basic
import Generics.Proofs.Mismatch

/-! # What a map puts in the place of variables

Actualization by name is one simultaneous replacement: it comes to `Descriptor.subst` of the template and to nothing
else. It comes to it exactly if the template has no more levels than there are for it, and each bound variable that
occurs in it, bounds of wildcards included, gets something that keeps to its own bounds
(`actualize_byName_eq_ok_iff`). -/

namespace Generics
set_option autoImplicit false

namespace Store

variable {s : Store} {σ : Substitution}

/-! ## The replacement -/

/-- What the substitution puts in for a variable, if anything, keeps to the bounds of the variable. -/
def Permits (s : Store) (σ : Substitution) (v : TypeVar) : Prop :=
  ∀ a, σ.get? v = some a → s.checkBounds v a σ = .ok ()

/-- Actualization by name comes to the substituted template, and it does if the template is tame. -/
theorem actualize_byName_eq_ok_iff {template out : Descriptor} :
    s.actualize template (.map σ) = .ok out ↔
      out = template.subst σ ∧ template.Tame maxActualizationDepth (s.Permits σ) := by
  rw [actualize, Descriptor.filled_eq Result.endsAtFault]
  exact Descriptor.replaceIn_ofMap_eq_ok_iff

/-! ## By position -/

theorem replaceIn_byPosition_var (levels : Nat) (v : TypeVar) :
    (Descriptor.var v).replaceIn s.byPosition (levels + 1) = s.takeForVar v := by
  rw [Descriptor.replaceIn, byPosition, bind_map_left]
  exact bind_pure _

theorem actualize_byPosition_eq (s : Store) (template : Descriptor) (items : List Descriptor) :
    s.actualize template (.queue items) =
      (template.replaceIn s.byPosition maxActualizationDepth).run ⟨items, 0, .empty⟩ >>= fun r =>
        if r.2.items.isEmpty then .ok r.1
        else .error (.excessBindings (s.text template) r.2.items.length) := by
  rw [actualize, Descriptor.filled_eq (Result.endsAtFault_stateT Supply)]
  refine bind_congr fun r => ?_
  obtain ⟨d, left, taken, bound⟩ := r
  cases left <;> rfl

/-! ## Simultaneous replacement -/

/-- By name, a template comes to its simultaneous replacement, exactly if it has at most 64 levels and what is put in
for each bound variable of it keeps to the bounds of that variable. -/
theorem map_replaces_simultaneously (s : Store) (template : Descriptor) (σ : Substitution) :
    (∀ out, s.actualize template (.map σ) = .ok out → out = template.subst σ) ∧
      ((∃ out, s.actualize template (.map σ) = .ok out) ↔
        template.nesting ≤ 64 ∧
          ∀ v ∈ template.vars, ∀ a, σ.get? v = some a → s.checkBounds v a σ = .ok ()) := by
  refine ⟨fun out h => (actualize_byName_eq_ok_iff.1 h).1, ?_⟩
  constructor
  · rintro ⟨out, hout⟩
    obtain ⟨_, hdepth, hvars⟩ := actualize_byName_eq_ok_iff.1 hout
    exact ⟨hdepth, hvars⟩
  · rintro ⟨hdepth, hvars⟩
    exact ⟨template.subst σ, actualize_byName_eq_ok_iff.2 ⟨rfl, hdepth, hvars⟩⟩

def oddParam : TypeVar := ⟨.ofClass ⟨2⟩, "T"⟩

def leafParam : TypeVar := ⟨.ofClass ⟨4⟩, "T"⟩

/-- `Leaf<U>.Odd<? extends Top & Leaf<T> & Leaf<T> & Top super T>`, where `T` is the parameter of `Odd` and `U` that of
`Leaf`. -/
def oddOfLeaves : Descriptor :=
  .applied (some (.generic ⟨4⟩ [.var leafParam])) ⟨2⟩
    [.wildcard [.var oddParam] [.bare ⟨1⟩, .generic ⟨4⟩ [.var oddParam], .generic ⟨4⟩ [.var oddParam], .bare ⟨1⟩]]

/-- What is put in is not replaced again, and bounds that do not change stay where they are. What does not keep to the
bounds of its variable is refused inside a wildcard too. -/
theorem loops_replaced :
    loops.actualize oddOfLeaves (.map ((Substitution.empty.insert oddParam (.generic ⟨4⟩ [.var leafParam])).insert
        leafParam (.bare ⟨1⟩))) =
      .ok (.applied (some (.generic ⟨4⟩ [.bare ⟨1⟩])) ⟨2⟩
        [.wildcard [.generic ⟨4⟩ [.var leafParam]]
          [.bare ⟨1⟩, .generic ⟨4⟩ [.generic ⟨4⟩ [.var leafParam]], .generic ⟨4⟩ [.generic ⟨4⟩ [.var leafParam]],
            .bare ⟨1⟩]]) ∧
    ¬ ∃ out, loops.actualize oddOfLeaves (.map (Substitution.empty.insert oddParam (.generic ⟨2⟩ [.bare ⟨1⟩]))) =
      .ok out := by
  constructor
  · obtain ⟨heq, hok⟩ := loops.map_replaces_simultaneously oddOfLeaves
      ((Substitution.empty.insert oddParam (.generic ⟨4⟩ [.var leafParam])).insert leafParam (.bare ⟨1⟩))
    have hvars : ∀ v ∈ oddOfLeaves.vars, v = leafParam ∨ v = oddParam := by decide
    obtain ⟨out, hout⟩ := hok.2 ⟨by decide, fun v hv a ha => by
      rcases hvars v hv with rfl | rfl <;> cases ha <;> rfl⟩
    rw [hout, heq out hout]
    rfl
  · intro hok
    have hbounds := ((loops.map_replaces_simultaneously oddOfLeaves _).2.1 hok).2 oddParam (by decide)
      (.generic ⟨2⟩ [.bare ⟨1⟩]) rfl
    cases hbounds

end Store

end Generics
