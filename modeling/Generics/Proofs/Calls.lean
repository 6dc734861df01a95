import Generics.Signature
import Generics.Proofs.BindingModes
import Generics.Proofs.Regular

/-! # Calls that were answered

If a call through a receiver is answered, the receiver is seen through the class of the method, what the method is
declared to return has the arguments of that view put in (`exists_views`), and the key of what is returned is that of
the type so made, or of what a wildcard is known by (`gives_of_returnKey`). -/

namespace Generics
set_option autoImplicit false

open Result

namespace Store

variable {s : Store}

/-- A bound without variables is the same whatever is known. -/
theorem fitsBound_of_checkBounds {known : Substitution} {v : TypeVar} {a bound : Descriptor}
    (h : s.checkBounds v a known = .ok ()) (hmem : bound ∈ s.boundsOf v) (hbound : bound.vars = []) :
    s.fitsBound a bound = .ok true := by
  obtain ⟨b, hb, hfits⟩ := checkBounds_eq_ok_iff.1 h bound hmem
  rw [(Substitution.apply_eq_ok_iff.1 hb).1, Descriptor.subst_eq_self (by simp [hbound])] at hfits
  exact hfits (by simp [Descriptor.hasVars_eq, hbound])

end Store

namespace Signature

variable {s : Store} {m : Signature}

/-- A receiver is seen through the class of the method as an application or a class that binds `σ`. -/
structure Views (s : Store) (m : Signature) (receiver : Key) (view : Descriptor) (σ : Substitution) : Prop where
  raw : view.raw? = some m.owner
  reaches : s.Reaches receiver.descriptor view
  bindings : s.bindingsOf view = .ok σ
  bounds : ∀ v a, m.returns = .var v → σ.get? v = some a → s.checkBounds v a σ = .ok ()

/-- Through the receiver, the method is seen to return `d`. -/
def Sees (s : Store) (m : Signature) (receiver : Key) (d : Descriptor) : Prop :=
  ∃ seen, m.actualizeFor s receiver = .ok seen ∧ seen.returns = d

/-- What a value is known to be that is seen to be returned as `d`: a wildcard is known by its bounds. -/
inductive Gives (s : Store) (declared : Descriptor) : Descriptor → Descriptor → Prop
  | whole {d : Descriptor} (h : ¬ d.IsWildcard) : Gives s declared d d
  | bound {lower upper : List Descriptor} {d : Descriptor} (h : returnedUpper? s declared upper = some d) :
      Gives s declared (.wildcard lower upper) d

theorem exists_views {receiver : Key} {seen : Signature} (h : m.actualizeFor s receiver = .ok seen) :
    ∃ view σ, m.Views s receiver view σ ∧ seen.returns = m.returns.subst σ := by
  rw [actualizeFor, bind_eq_ok_iff] at h
  obtain ⟨found, hfound, h⟩ := h
  cases found with
  | none => cases h
  | some view =>
    obtain ⟨hraw, hreach⟩ := Store.reaches_of_asSupertype hfound
    obtain ⟨σ, hσ, h⟩ := bind_eq_ok_iff.1 h
    obtain ⟨params, _, h⟩ := bind_eq_ok_iff.1 h
    obtain ⟨returns, hreturns, h⟩ := bind_eq_ok_iff.1 h
    cases h
    obtain ⟨hsubst, htame⟩ := Store.actualize_byName_eq_ok_iff.1 hreturns
    refine ⟨view, σ, ⟨hraw, hreach, hσ, fun v a hv ha => ?_⟩, hsubst⟩
    exact htame.vars v (by simp [hv, Descriptor.vars]) a ha

theorem gives_of_returnKey {receiver k : Key} (h : m.returnKey s receiver = .ok k) :
    k.MadeIn s ∧ ∃ seen, m.actualizeFor s receiver = .ok seen ∧ Gives s m.returns seen.returns k.descriptor := by
  rw [returnKey, bind_eq_ok_iff] at h
  obtain ⟨seen, hseen, h⟩ := h
  split at h
  · rename_i lower upper hreturns
    split at h
    · rename_i d hupper
      obtain ⟨_, _, c, _, rfl⟩ := Key.freeze_eq_ok_iff.1 h
      refine ⟨⟨d, false, h⟩, seen, hseen, ?_⟩
      rw [hreturns]
      exact .bound hupper
    · cases h
  · rename_i hw
    have hfreeze : ∃ allowVars, Key.freeze s seen.returns allowVars = .ok k := by
      split at h
      · exact ⟨true, h⟩
      · exact ⟨false, h⟩
    obtain ⟨allowVars, hfreeze⟩ := hfreeze
    obtain ⟨_, _, c, _, rfl⟩ := Key.freeze_eq_ok_iff.1 hfreeze
    refine ⟨⟨seen.returns, allowVars, hfreeze⟩, seen, hseen, .whole ?_⟩
    rintro ⟨lower, upper, heq⟩
    exact hw lower upper heq

theorem Gives.unique {declared d e e' : Descriptor} (h : Gives s declared d e) (h' : Gives s declared d e') :
    e = e' := by
  cases h with
  | whole hw =>
    cases h' with
    | whole => rfl
    | @bound lower upper => exact (hw ⟨lower, upper, rfl⟩).elim
  | @bound lower upper _ hd =>
    cases h' with
    | whole hw => exact (hw ⟨lower, upper, rfl⟩).elim
    | bound hd' => exact Option.some.inj (hd.symm.trans hd')

theorem returnedUpper?_var_nil {v : TypeVar} {d : Descriptor} (h : returnedUpper? s (.var v) [] = some d) :
    (s.boundsOf v).find? (!·.hasVars) = some d ∨
      (s.boundsOf v).find? (!·.hasVars) = none ∧ ∃ r, s.root = some r ∧ d = .bare r := by
  have heq : returnedUpper? s (.var v) [] = ((s.boundsOf v).find? (!·.hasVars) <|> s.root.map .bare) := rfl
  rw [heq] at h
  cases hfind : (s.boundsOf v).find? (!·.hasVars) with
  | some b =>
    rw [hfind] at h
    exact .inl h
  | none =>
    rw [hfind] at h
    obtain ⟨r, hr, rfl⟩ := Option.map_eq_some_iff.1 h
    exact .inr ⟨rfl, r, hr, rfl⟩

theorem vars_of_find? {bounds : List Descriptor} {b : Descriptor} (h : bounds.find? (!·.hasVars) = some b) :
    b.vars = [] := by
  simpa [Descriptor.hasVars_eq] using List.find?_some h

theorem Gives.vars_eq_nil {v : TypeVar} {d e : Descriptor} (h : Gives s (.var v) d e) (hd : d.vars = []) :
    e.vars = [] := by
  cases h with
  | whole => exact hd
  | @bound lower upper _ he =>
    cases upper with
    | cons u upper =>
      cases he
      exact Descriptor.vars_eq_nil_of_subset (fun _ => Descriptor.mem_vars_upper List.mem_cons_self) hd
    | nil =>
      rcases returnedUpper?_var_nil he with he | ⟨_, r, _, rfl⟩
      · exact vars_of_find? he
      · rfl

theorem Gives.not_var {declared : Descriptor} {v : TypeVar} {k : Key} (hk : k.MadeIn s) :
    ¬ Gives s declared (.var v) k.descriptor := by
  intro h
  have hraw := hk.raw?_eq
  rw [h.unique (.whole (by simp [Descriptor.IsWildcard]))] at hraw
  cases hraw

/-! ## What is promised -/

/-- What a call promises to return: a wildcard that is declared is known by its first upper bound. -/
def promise? (m : Signature) : Option Descriptor :=
  match m.returns with
  | .wildcard _ upper => upper.head?
  | d => some d

theorem Gives.eq_of_promise {σ : Substitution} {d k : Descriptor} (hp : m.promise? = some d)
    (hvar : ∀ v, m.returns ≠ .var v) (h : Gives s m.returns (m.returns.subst σ) k) : k = d.subst σ := by
  unfold promise? at hp
  cases hr : m.returns with
  | bare c =>
    rw [hr] at hp h
    cases hp
    exact (h.unique (.whole (by simp [Descriptor.IsWildcard, Descriptor.subst])))
  | applied owner c args =>
    rw [hr] at hp h
    cases hp
    exact h.unique (.whole (by simp [Descriptor.IsWildcard, Descriptor.subst]))
  | var v => exact (hvar v hr).elim
  | wildcard lower upper =>
    rw [hr] at hp h
    cases upper with
    | nil => cases hp
    | cons u upper =>
      cases hp
      exact h.unique (.bound rfl)

theorem Gives.eq_root {σ : Substitution} {k : Descriptor} (hp : m.promise? = none)
    (h : Gives s m.returns (m.returns.subst σ) k) : s.root.map .bare = some k := by
  unfold promise? at hp
  cases hr : m.returns with
  | bare c => rw [hr] at hp; cases hp
  | applied owner c args => rw [hr] at hp; cases hp
  | var v => rw [hr] at hp; cases hp
  | wildcard lower upper =>
    rw [hr] at hp h
    cases upper with
    | cons u upper => cases hp
    | nil =>
      cases h with
      | whole hw => exact (hw ⟨_, _, rfl⟩).elim
      | bound hroot => exact hroot

theorem mem_vars_of_promise {d : Descriptor} (hp : m.promise? = some d) {v : TypeVar} (hv : v ∈ d.vars) :
    v ∈ m.returns.vars := by
  unfold promise? at hp
  cases hr : m.returns with
  | bare c =>
    rw [hr] at hp
    cases hp
    exact hv
  | applied owner c args =>
    rw [hr] at hp
    cases hp
    exact hv
  | var w =>
    rw [hr] at hp
    cases hp
    exact hv
  | wildcard lower upper =>
    rw [hr] at hp
    exact Descriptor.mem_vars_upper (List.mem_of_head? hp) hv

end Signature

end Generics
