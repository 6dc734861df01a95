import Generics.Proofs.Calls
import Generics.Proofs.Casts
import Generics.Proofs.Receivers

/-! # What a call returns through a narrower receiver

A value that comes out of a call through a narrower receiver should fit what a wider one promises. It does not always:
a wildcard argument of the receiver ends up inside an argument of the returned type, where only the same will do; a
wildcard that is returned passes for its first bound alone; and a wildcard without bounds has those of the parameter
where it stands, but not in another place. `Signature.CarriesOver` says that none of this is so, and then what is
returned through the narrower receiver is not refused (`returns_covariant`). -/

namespace Generics
set_option autoImplicit false

open Result

namespace Store

variable {s : Store} {wide narrow : Descriptor}

/-! ## A returned variable -/

/-- Only the class above all others takes it. -/
theorem Coherent.eq_root_of_grants (hs : s.Coherent) {r : ClassId} (hr : s.root = some r) {u : Descriptor}
    (hu : u.raw?.isSome) (h : s.Grants u (.bare r)) : u = .bare r := by
  obtain ⟨t, d, levels, ht, hd, hyes⟩ := h
  rw [Descriptor.bare_beq_iff.1 (BEq.symm hd)] at hyes
  rw [← Descriptor.raw?_eq_of_beq ht] at hu
  cases t with
  | bare c =>
    rcases Relation.ReflTransGen.cases_head (below_of_bare_takes rfl hyes) with rfl | ⟨p, hparent, _⟩
    · exact Descriptor.bare_beq_iff.1 ht
    · exact (hs.not_parent_root hr hparent).elim
  | applied owner c args =>
    obtain ⟨owner', args', hreach, _⟩ := exists_fitting_view rfl hyes
    cases hs.eq_root_of_visits hr hreach.visits
  | var v => simp [Descriptor.raw?] at hu
  | wildcard lower upper => simp [Descriptor.raw?] at hu

/-- What the variable `v` is seen as through a narrower receiver is no worse than through a wider one. Wildcards
without bounds will be known by those of the variable. -/
inductive Upholds (s : Store) (v : TypeVar) : Descriptor → Descriptor → Prop
  | whole {d d' : Descriptor} (hd : ¬ d.IsWildcard) (hd' : ¬ d'.IsWildcard) (h : s.Allows d d') : Upholds s v d d'
  | inside {lower upper : List Descriptor} {d' : Descriptor} (hd' : ¬ d'.IsWildcard)
      (h : ∀ u ∈ upper, s.Allows u d') : Upholds s v (.wildcard lower upper) d'
  | bounds {lower upper lower' upper' : List Descriptor}
      (h : ∀ u ∈ upper, (∃ u' ∈ upper', s.Allows u u') ∨ upper' = [] ∧ (u.raw?.isSome →
        ∀ d, Signature.returnedUpper? s (.var v) [] = some d → d.vars = [] → s.Allows u d)) :
      Upholds s v (.wildcard lower upper) (.wildcard lower' upper')

theorem isWildcard_of_beq {d e : Descriptor} (h : d == e) (hd : d.IsWildcard) : e.IsWildcard := by
  obtain ⟨lower, upper, rfl⟩ := hd
  obtain ⟨lower', upper', rfl, _⟩ := Descriptor.wildcard_beq_iff.1 h
  exact ⟨lower', upper', rfl⟩

theorem upholds_of_beq {v : TypeVar} {d d' : Descriptor} (h : d == d') : s.Upholds v d d' := by
  by_cases hd : d.IsWildcard
  · obtain ⟨lower, upper, rfl⟩ := hd
    obtain ⟨lower', upper', rfl, _, hupper⟩ := Descriptor.wildcard_beq_iff.1 h
    refine .bounds fun u hu => .inl ?_
    obtain ⟨u', hu', heq⟩ := hupper.1 u hu
    exact ⟨u', hu', allows_of_beq heq⟩
  · exact .whole hd (fun hd' => hd (isWildcard_of_beq (BEq.symm h) hd')) (allows_of_beq h)

/-- The arguments of the receivers, where the variable is a parameter of their class. -/
theorem Coherent.upholds_of_faces (hs : s.Coherent) {c : ClassId} {i : Nat} {v w : TypeVar} {a a' d' : Descriptor}
    (hfaces : s.Faces wide narrow c i w a a') (hfits : s.FitsAt s.Grants c i a a') (hd' : a' == d')
    (hleaning : ∀ bounds, s.Leans wide narrow w bounds →
      ∀ b ∈ bounds, ∃ b', (s.boundsOf v).find? (!·.hasVars) = some b' ∧ b == b') : s.Upholds v a d' := by
  obtain ⟨decl, hc⟩ := hfaces.declared
  rcases hfits.cases_declared hc with heq | ⟨lower, upper, rfl, ⟨hne, hw⟩ | ⟨lower', rfl, hw⟩⟩
  · exact upholds_of_beq (BEq.trans heq hd')
  · have hwithin := (hw.congr respects_grants (.refl _) (.refl _) hd').mono fun _ _ => Grants.allows
    by_cases hwild : d'.IsWildcard
    · obtain ⟨lower', upper', rfl⟩ := hwild
      refine .bounds fun u hu => .inl ?_
      obtain ⟨u', hu', hallows⟩ := hwithin.1 u hu
      rcases mem_impliedUpper hu' with hu' | ⟨rfl, _⟩
      · exact ⟨u', hu', hallows⟩
      · exact (ne_unbounded_of_beq hd' hne lower' rfl).elim
    · refine .inside hwild ?_
      cases d' with
      | wildcard lower' upper' => exact (hwild ⟨lower', upper', rfl⟩).elim
      | bare b => exact hwithin.1
      | applied owner b args => exact hwithin.1
      | var x => exact hwithin.1
  · obtain ⟨lower'', upper'', rfl, _, hupper⟩ := Descriptor.wildcard_beq_iff.1 hd'
    cases hupper.eq_nil_iff.1 rfl
    refine .bounds fun u hu => .inr ⟨rfl, fun hnominal d hd hclosed => ?_⟩
    have hroot : (∃ r, s.root = some r ∧ u = .bare r) → s.Allows u d := by
      rintro ⟨r, hr, rfl⟩
      exact hs.allows_root hr hclosed
    by_cases hleans : s.Leans wide narrow w (s.settledBounds c i)
    · obtain ⟨y, hy, hgrants⟩ := hw.1 u hu
      rcases mem_impliedUpper hy with hy | ⟨_, r, hr, rfl⟩
      · obtain ⟨b, hb, heq⟩ := hleaning _ hleans y hy
        rcases Signature.returnedUpper?_var_nil hd with hfirst | ⟨hnone, _⟩
        · rw [hb] at hfirst
          cases hfirst
          exact (respects_grants BEq.rfl heq hgrants).allows
        · rw [hb] at hnone
          cases hnone
      · exact hroot ⟨r, hr, hs.eq_root_of_grants hr hnominal hgrants⟩
    · exact hroot (eq_root_of_not_leans hfaces hleans hu)

/-- A type made of the receivers' arguments, where the variable is bound on the way up. -/
theorem upholds_of_covariant {same loose : TypeVar → Prop} {suits : TypeVar → ClassId → Nat → Prop}
    {σ σ' : Substitution} {v : TypeVar} {d e : Descriptor} (h : d.Covariant same loose suits)
    (hv : ∀ w ∈ d.vars, s.Narrows same loose suits σ σ' w) (hvar : ∀ w, d ≠ .var w) (he : d.subst σ' == e) :
    s.Upholds v (d.subst σ) e := by
  have hplain : d.raw?.isSome → s.Upholds v (d.subst σ) e := by
    intro hraw
    have hnot : ∀ {x : Descriptor}, x.raw?.isSome → ¬ x.IsWildcard := by
      rintro _ hx ⟨lower, upper, rfl⟩
      simp [Descriptor.raw?] at hx
    have he' : e.raw?.isSome := by
      rw [← Descriptor.raw?_eq_of_beq he]
      exact raw?_isSome_subst σ' hraw
    exact .whole (hnot (raw?_isSome_subst σ hraw)) (hnot he') (allows_subst_of_covariant h hv he).1
  cases d with
  | bare c => exact hplain rfl
  | applied owner c args => exact hplain rfl
  | var w => exact (hvar w rfl).elim
  | wildcard lower upper =>
    have hupper : ∀ u ∈ upper, u.Covariant same loose suits := by
      intro u hu
      cases h with
      | fixed hsame => exact .fixed fun w hw => hsame w (Descriptor.mem_vars_upper hu hw)
      | wildcard _ hcovariant => exact hcovariant u hu
    simp only [Descriptor.subst, Descriptor.substList_eq] at he ⊢
    obtain ⟨lower', upper', rfl, _, hsets⟩ := Descriptor.wildcard_beq_iff.1 he
    refine .bounds fun x hx => .inl ?_
    obtain ⟨u, hu, rfl⟩ := List.mem_map.1 hx
    obtain ⟨u', hu', heq⟩ := hsets.1 (u.subst σ') (List.mem_map_of_mem hu)
    have hvars : ∀ w ∈ u.vars, s.Narrows same loose suits σ σ' w := fun w hw => hv w (Descriptor.mem_vars_upper hu hw)
    exact ⟨u', hu', (allows_subst_of_covariant (hupper u hu) hvars heq).1⟩

theorem allows_of_isAssignable {t d : Descriptor} (h : s.isAssignable t d = .ok true) : s.Allows t d :=
  (grants_of_eq_ok h).allows

/-- Of an upper bound that leaves room under a declared one, the declared one is above it or below it. -/
theorem related_of_leavesRoom {lower upper : List Descriptor} {bound u : Descriptor}
    (h : s.leavesRoom ⟨lower, upper⟩ bound = .ok true) (hu : u ∈ upper) :
    s.isAssignable bound u = .ok true ∨ s.isAssignable u bound = .ok true := by
  rw [leavesRoom, wildcardWithin, bind_eq_ok_iff] at h
  obtain ⟨all, hall, hrest⟩ := h
  cases all with
  | false => cases hrest
  | true =>
    obtain ⟨above, habove, hbelow⟩ := bind_eq_ok_iff.1 (allM_eq_true_iff.1 hall u hu)
    cases above with
    | true => exact .inl habove
    | false => exact .inr hbelow

/-- What a variable without a better bound is known by takes what keeps to its bounds. -/
theorem Coherent.declared_allows (hs : s.Coherent) {v : TypeVar} {k d : Descriptor} {known : Substitution}
    (hk : Signature.returnedUpper? s (.var v) [] = some k) (hcheck : s.checkBounds v d known = .ok ())
    (hd : ¬ d.IsWildcard) (hclosed : d.vars = []) : s.Allows k d := by
  rcases Signature.returnedUpper?_var_nil hk with hfirst | ⟨_, r, hr, rfl⟩
  · have hyes := fitsBound_of_checkBounds hcheck (List.mem_of_find?_eq_some hfirst) (Signature.vars_of_find? hfirst)
    cases d with
    | wildcard lower upper => exact (hd ⟨lower, upper, rfl⟩).elim
    | bare c => exact allows_of_isAssignable hyes
    | applied owner c args => exact allows_of_isAssignable hyes
    | var w => exact allows_of_isAssignable hyes
  · exact hs.allows_root hr hclosed

/-- What the keys of the two returned types are, if the variable itself is returned. -/
theorem Coherent.allows_of_upholds (hs : s.Coherent) {v : TypeVar} {d d' k k' : Descriptor} {known : Substitution}
    (h : s.Upholds v d d') (hk : Signature.Gives s (.var v) d k) (hk' : Signature.Gives s (.var v) d' k')
    (hnominal : k.raw?.isSome) (hclosed : k'.vars = []) (hcheck : s.checkBounds v d' known = .ok ())
    (hseveral : ∀ lower u upper lower' u' x upper', d = .wildcard lower (u :: upper) →
      d' = .wildcard lower' (u' :: x :: upper') → u == u')
    (hdeclared : ∀ lower lower' u upper' b, d = .wildcard lower [] → d' = .wildcard lower' (u :: upper') →
      (s.boundsOf v).find? (!·.hasVars) = some b → b == u ∨ s.isAssignable u b ≠ .ok true) : s.Allows k k' := by
  cases h with
  | whole hd hd' hallows =>
    cases hk with
    | bound => exact (hd ⟨_, _, rfl⟩).elim
    | whole =>
      cases hk' with
      | bound => exact (hd' ⟨_, _, rfl⟩).elim
      | whole => exact hallows
  | @inside lower upper _ hd' hallows =>
    cases hk' with
    | bound => exact (hd' ⟨_, _, rfl⟩).elim
    | whole =>
      cases hk with
      | whole hd => exact (hd ⟨_, _, rfl⟩).elim
      | bound hupper =>
        cases upper with
        | cons u upper =>
          cases hupper
          exact hallows k List.mem_cons_self
        | nil => exact hs.declared_allows hupper hcheck hd' hclosed
  | @bounds lower upper lower' upper' hbounds =>
    cases hk with
    | whole hd => exact (hd ⟨_, _, rfl⟩).elim
    | bound hupper =>
      cases hk' with
      | whole hd => exact (hd ⟨_, _, rfl⟩).elim
      | bound hupper' =>
        cases upper with
        | cons u upper =>
          cases hupper
          rcases hbounds k List.mem_cons_self with ⟨u', hu', hallows⟩ | ⟨rfl, hallows⟩
          · cases upper' with
            | nil => simp at hu'
            | cons x upper' =>
              cases hupper'
              cases upper' with
              | nil =>
                rw [← List.mem_singleton.1 hu']
                exact hallows
              | cons y upper' => exact allows_of_beq (hseveral _ _ _ _ _ _ _ rfl rfl)
          · exact hallows hnominal k' hupper' hclosed
        | nil =>
          rcases Signature.returnedUpper?_var_nil hupper with hfirst | ⟨_, r, hr, rfl⟩
          · cases upper' with
            | nil =>
              rw [Option.some.inj (hupper.symm.trans hupper')]
              exact allows_of_beq BEq.rfl
            | cons u upper' =>
              cases hupper'
              have hroom := fitsBound_of_checkBounds hcheck (List.mem_of_find?_eq_some hfirst)
                (Signature.vars_of_find? hfirst)
              rcases related_of_leavesRoom hroom List.mem_cons_self with hyes | hback
              · exact allows_of_isAssignable hyes
              · exact allows_of_beq ((hdeclared _ _ _ _ _ rfl rfl hfirst).resolve_right fun hno => hno hback)
          · exact hs.allows_root hr hclosed

end Store

namespace Signature

/-- What the parameters of the method's class are, seen from those of the class `c`. -/
def Placed (s : Store) (m : Signature) (c : ClassId) (τ : Substitution) : Prop :=
  ∃ t g, s.template c = .ok t ∧ s.Reaches t g ∧ g.raw? = some m.owner ∧ s.bindingsOf g = .ok τ

/-- The declared return type and two receivers are such that the narrower receiver makes the returned type narrower. -/
structure CarriesOver (s : Store) (m : Signature) (wide narrow : Key) : Prop where
  /-- No owner binds the variables of the class that it owns. -/
  keepsOwn : ∀ d, s.Reaches wide.descriptor d ∨ s.Reaches narrow.descriptor d → d.KeepsOwn
  /-- What is promised, seen from the wider receiver's class, is one of the parameters, or has those that differ only
  where a narrower argument makes a narrower type. -/
  places : ∀ d τ, m.promise? = some d → m.Placed s wide.raw τ → (∃ v, d.subst τ = .var v) ∨
    (d.subst τ).Covariant (s.Same wide.descriptor narrow.descriptor) (s.Loose wide.descriptor narrow.descriptor)
      (s.Suits wide.descriptor narrow.descriptor)
  /-- The bounds by which a variable is known make up for those by which an argument has passed. -/
  leaning : ∀ v w τ bounds, m.returns = .var v → m.Placed s wide.raw τ → τ.get? v = some (.var w) →
    s.Leans wide.descriptor narrow.descriptor w bounds →
    ∀ b ∈ bounds, ∃ b', (s.boundsOf v).find? (!·.hasVars) = some b' ∧ b == b'
  /-- Of several bounds of a wildcard it is the first that counts. -/
  several : ∀ v lower u upper lower' u' x upper', m.returns = .var v →
    m.Sees s wide (.wildcard lower (u :: upper)) → m.Sees s narrow (.wildcard lower' (u' :: x :: upper')) → u == u'
  /-- No bound of a wildcard is above that of the variable. -/
  declared : ∀ v lower lower' u upper' b, m.returns = .var v → m.Sees s wide (.wildcard lower []) →
    m.Sees s narrow (.wildcard lower' (u :: upper')) → (s.boundsOf v).find? (!·.hasVars) = some b →
    b == u ∨ s.isAssignable u b ≠ .ok true

variable {s : Store} {m : Signature}

/-! ## The two calls -/

section Calls

variable {wide narrow k k' : Key} {view view' : Descriptor} {σ σ' : Substitution} {decl : ClassDecl}

/-- A wider receiver that leaves its arguments open promises what is declared. The narrower one cannot promise more
precise types, as long as it is not the only one to promise a type without variables. -/
theorem eq_of_open (ho : s.OwnSupertypes) (hviews : m.Views s wide (.bare m.owner) σ)
    (hviews' : m.Views s narrow view' σ') (hgives : Gives s m.returns (m.returns.subst σ) k.descriptor)
    (hgives' : Gives s m.returns (m.returns.subst σ') k'.descriptor) (hk : k.MadeIn s) (hk' : k'.MadeIn s)
    (hnarrow : narrow.descriptor.vars = []) (hdecl : s.get? m.owner = some decl)
    (hown : ∀ v ∈ m.returns.vars, v ∈ decl.ownVars m.owner) (hpartial : k.isPartial = true → k'.isPartial = true) :
    k.descriptor = k'.descriptor := by
  have hempty : ∀ {receiver : Key} {τ : Substitution}, m.Views s receiver (.bare m.owner) τ → τ = .empty := by
    intro receiver τ h
    exact (Except.ok.inj h.bindings).symm
  have hself : ∀ d : Descriptor, d.subst .empty = d := fun d => Descriptor.subst_eq_self (by simp)
  cases hempty hviews
  cases hp : m.promise? with
  | none => exact Option.some.inj ((hgives.eq_root hp).symm.trans (hgives'.eq_root hp))
  | some d =>
    have hvar : ∀ v, m.returns ≠ .var v := by
      intro v hr
      rw [hr, hself] at hgives
      exact Gives.not_var hk hgives
    have hd := hgives.eq_of_promise hp hvar
    have hd' := hgives'.eq_of_promise hp hvar
    rw [hself] at hd
    by_cases hopen : view' = .bare m.owner
    · subst hopen
      rw [hd, hd', hempty hviews', hself]
    · have hclosed' : ∀ w ∈ k'.descriptor.vars, False := by
        rw [hd']
        exact Descriptor.forall_vars_subst fun v hv => ho.closesOver_of_reaches (by simp [hnarrow]) hviews'.reaches
          hviews'.raw hopen hviews'.bindings hdecl (hown v (mem_vars_of_promise hp hv))
      have hresolved' := hk'.isPartial_eq_false (List.eq_nil_iff_forall_not_mem.2 hclosed')
      have hresolved : k.isPartial = false := by
        cases hk : k.isPartial with
        | false => rfl
        | true =>
          rw [hpartial hk] at hresolved'
          cases hresolved'
      have hclosed : d.vars = [] := by
        rw [← hd]
        exact hk.closed hresolved
      rw [hd, hd', Descriptor.subst_eq_self (by simp [hclosed])]

/-- What is promised with `σ` put in, if it is nominal, takes it with `σ'`, and a returned variable is no worse. -/
structure Delivers (s : Store) (m : Signature) (σ σ' : Substitution) : Prop where
  promised : ∀ d, m.promise? = some d → (d.subst σ).raw?.isSome → s.Allows (d.subst σ) (d.subst σ')
  returned : ∀ v, m.returns = .var v → s.Upholds v ((Descriptor.var v).subst σ) ((Descriptor.var v).subst σ')

theorem Delivers.allows (h : m.Delivers s σ σ') (hs : s.Coherent) (hcarries : m.CarriesOver s wide narrow)
    (hviews' : m.Views s narrow view' σ') (hsees : m.Sees s wide (m.returns.subst σ))
    (hsees' : m.Sees s narrow (m.returns.subst σ'))
    (hgives : Gives s m.returns (m.returns.subst σ) k.descriptor)
    (hgives' : Gives s m.returns (m.returns.subst σ') k'.descriptor) (hk : k.MadeIn s)
    (hclosed : ∀ v, m.returns = .var v → σ'.ClosesOver (fun _ => False) v) :
    s.Allows k.descriptor k'.descriptor := by
  have hnominal : k.descriptor.raw?.isSome := by
    rw [hk.raw?_eq]
    rfl
  cases hp : m.promise? with
  | none =>
    rw [Option.some.inj ((hgives.eq_root hp).symm.trans (hgives'.eq_root hp))]
    exact Store.allows_of_beq BEq.rfl
  | some d =>
    by_cases hr : ∃ v, m.returns = .var v
    · obtain ⟨v, hr⟩ := hr
      obtain ⟨a, ha, hvars⟩ := hclosed v hr
      have hbounds := hviews'.bounds v a hr ha
      have hupholds := h.returned v hr
      have hseveral := hcarries.several v
      have hdeclared := hcarries.declared v
      rw [hr] at hgives hgives' hsees hsees'
      rw [Descriptor.subst_var ha] at hgives' hsees' hupholds
      refine hs.allows_of_upholds hupholds hgives hgives' hnominal
        (hgives'.vars_eq_nil (List.eq_nil_iff_forall_not_mem.2 hvars)) hbounds ?_ ?_
      · intro lower u upper lower' u' x upper' hd hd'
        rw [hd] at hsees
        rw [hd'] at hsees'
        exact hseveral _ _ _ _ _ _ _ hr hsees hsees'
      · intro lower lower' u upper' b hd hd'
        rw [hd] at hsees
        rw [hd'] at hsees'
        exact hdeclared _ _ _ _ _ hr hsees hsees'
    · have hnot : ∀ v, m.returns ≠ .var v := fun v h => hr ⟨v, h⟩
      rw [hgives.eq_of_promise hp hnot] at hnominal ⊢
      rw [hgives'.eq_of_promise hp hnot]
      exact h.promised d hp hnominal

/-- Both receivers are applications of one class, and bind the parameters of the method's class to what `ρ` does, with
`σc` and `σc'` for the parameters of that class put in. -/
structure Derives (s : Store) (m : Signature) (wide narrow : Key) (own : List TypeVar) (σ σ' ρ σc σc' : Substitution) :
    Prop where
  placed : m.Placed s wide.raw ρ
  binds : ∀ v ∈ own, ∃ a, ρ.get? v = some a
  subst_eq : ∀ d : Descriptor, (∀ v ∈ d.vars, v ∈ own) → d.subst σ = (d.subst ρ).subst σc
  subst_beq : ∀ d : Descriptor, (∀ v ∈ d.vars, v ∈ own) → d.subst σ' == (d.subst ρ).subst σc'
  faces : ∀ d : Descriptor, (∀ v ∈ d.vars, v ∈ own) → ∀ w ∈ (d.subst ρ).vars, ∃ i a a', σc.get? w = some a ∧
    σc'.get? w = some a' ∧ s.Faces wide.descriptor narrow.descriptor wide.raw i w a a' ∧
    s.FitsAt s.Grants wide.raw i a a'

theorem exists_derives (hs : s.Coherent) (hcarries : m.CarriesOver s wide narrow) (hwide : wide.MadeIn s)
    (hnarrow : narrow.MadeIn s) {owner : Option Descriptor} {c : ClassId} {args : List Descriptor}
    (happ : wide.descriptor = .applied owner c args) {levels : Nat}
    (hyes : (s.asks levels).assignable wide.descriptor narrow.descriptor = .ok true)
    (hviews : m.Views s wide view σ) (hviews' : m.Views s narrow view' σ') (hopen : view ≠ .bare m.owner)
    (hdecl : s.get? m.owner = some decl) (hparams : decl.params ≠ []) :
    ∃ ρ σc σc', m.Derives s wide narrow (decl.ownVars m.owner) σ σ' ρ σc σc' := by
  have hkeeps := hcarries.keepsOwn
  have hraw := hwide.raw?_eq
  have hwf := hwide.wellFormed
  have hreach := hviews.reaches
  rw [happ] at hkeeps hraw hwf hyes hreach
  cases hraw
  obtain ⟨owner', args', hseen, hfits⟩ := Store.exists_fitting_view (by rw [hnarrow.raw?_eq]; rfl) hyes
  have hwf' := hs.wellFormed_reaches hnarrow.wellFormed hseen
  obtain ⟨declc, hc⟩ := hwf.declared rfl
  obtain ⟨σc, hσc, -⟩ := hwf.bindingsOf
  obtain ⟨σc', hσc', -⟩ := hwf'.bindingsOf
  obtain ⟨t, g, ρ, ht, hg, hgraw, hgopen, hρ, hcommon⟩ := hs.exists_common_view hwf (fun y hy => hkeeps y (.inl hy))
    hnarrow.wellFormed (fun y hy => hkeeps y (.inr hy)) hseen hσc hσc' hreach hviews'.reaches hviews.raw hviews'.raw
    hopen hviews.bindings hviews'.bindings hdecl hparams
  have hcloses : ∀ v ∈ decl.ownVars m.owner, ρ.ClosesOver (· ∈ declc.ownVars wide.raw) v := fun v hv =>
    hs.own.closesOver_of_reaches (Store.forall_vars_template hc ht) hg hgraw hgopen hρ hdecl hv
  refine ⟨ρ, σc, σc', ⟨t, g, ht, hg, hgraw, hρ⟩, fun v hv => ?_, fun d hd => (hcommon d hd).1,
    fun d hd => (hcommon d hd).2, fun d hd w hw => ?_⟩
  · obtain ⟨a, ha, _⟩ := hcloses v hv
    exact ⟨a, ha⟩
  · rw [happ]
    exact Store.exists_faces hc (Descriptor.forall_vars_subst (fun v hv => hcloses v (hd v hv)) w hw) hwf hwf'
      (hkeeps _ (.inl .refl)) (hkeeps _ (.inr hseen)) hseen hσc hσc' hfits

section Derived

variable {own : List TypeVar} {ρ σc σc' : Substitution}

theorem Derives.narrows (hs : s.Coherent) (h : m.Derives s wide narrow own σ σ' ρ σc σc') {d : Descriptor}
    (hd : ∀ v ∈ d.vars, v ∈ own) : ∀ w ∈ (d.subst ρ).vars,
      s.Narrows (s.Same wide.descriptor narrow.descriptor) (s.Loose wide.descriptor narrow.descriptor)
        (s.Suits wide.descriptor narrow.descriptor) σc σc' w := by
  intro w hw
  obtain ⟨i, a, a', ha, ha', hfaces, hfits⟩ := h.faces d hd w hw
  exact ⟨a, a', ha, ha', fun hsame => hsame _ _ _ _ hfaces,
    fun hloose u hu => (hs.fits_elsewhere hfaces hfits hu).1 hloose,
    fun b j hsuits u hu => (hs.fits_elsewhere hfaces hfits hu).2 b j hsuits⟩

theorem Derives.allows_promised (hs : s.Coherent) (h : m.Derives s wide narrow own σ σ' ρ σc σc')
    (hcarries : m.CarriesOver s wide narrow) {d : Descriptor} (hp : m.promise? = some d)
    (hd : ∀ v ∈ d.vars, v ∈ own) (hnominal : (d.subst σ).raw?.isSome) : s.Allows (d.subst σ) (d.subst σ') := by
  have hbeq := BEq.symm (h.subst_beq d hd)
  rw [h.subst_eq d hd] at hnominal ⊢
  rcases hcarries.places d ρ hp h.placed with ⟨w, hw⟩ | hcovariant
  · -- an argument that is nominal has to be the same on both sides
    obtain ⟨i, a, a', ha, ha', _, hfits⟩ := h.faces d hd w (by simp [hw, Descriptor.vars])
    rw [hw, Descriptor.subst_var ha] at hnominal ⊢
    rw [hw, Descriptor.subst_var ha'] at hbeq
    rcases hfits with hsame | ⟨lower, upper, rfl, _⟩
    · exact Store.allows_of_beq (BEq.trans hsame hbeq)
    · simp [Descriptor.raw?] at hnominal
  · exact (Store.allows_subst_of_covariant hcovariant (h.narrows hs hd) hbeq).1

theorem Derives.upholds_returned (hs : s.Coherent) (h : m.Derives s wide narrow own σ σ' ρ σc σc')
    (hcarries : m.CarriesOver s wide narrow) {v : TypeVar} (hr : m.returns = .var v) (hv : v ∈ own) :
    s.Upholds v ((Descriptor.var v).subst σ) ((Descriptor.var v).subst σ') := by
  have hd : ∀ w ∈ (Descriptor.var v).vars, w ∈ own := by
    intro w hw
    rw [Descriptor.vars, List.mem_singleton] at hw
    rw [hw]
    exact hv
  have hbeq := BEq.symm (h.subst_beq (.var v) hd)
  rw [h.subst_eq (.var v) hd]
  by_cases hvar : ∃ w, (Descriptor.var v).subst ρ = .var w
  · obtain ⟨w, hw⟩ := hvar
    obtain ⟨b, hb⟩ := h.binds v hv
    have hget : ρ.get? v = some (.var w) := by rw [← hw, Descriptor.subst_var hb, hb]
    obtain ⟨i, a, a', ha, ha', hfaces, hfits⟩ := h.faces _ hd w (by simp [hw, Descriptor.vars])
    rw [hw, Descriptor.subst_var ha]
    rw [hw, Descriptor.subst_var ha'] at hbeq
    exact hs.upholds_of_faces hfaces hfits hbeq fun bounds => hcarries.leaning v w ρ bounds hr h.placed hget
  · have hp : m.promise? = some (.var v) := by rw [promise?, hr]
    have hcovariant := (hcarries.places _ ρ hp h.placed).resolve_left hvar
    exact Store.upholds_of_covariant hcovariant (h.narrows hs hd) (fun w hw => hvar ⟨w, hw⟩) hbeq

end Derived

/-- Two receivers of which the wider is a class on its own: if it does not leave the arguments of the method's class
open all the same, both are seen through it as the same. -/
theorem beq_of_bare (hs : s.Coherent) (hcarries : m.CarriesOver s wide narrow) (hnarrow : narrow.MadeIn s)
    {c : ClassId} (hbare : wide.descriptor = .bare c) {levels : Nat}
    (hyes : (s.asks levels).assignable wide.descriptor narrow.descriptor = .ok true)
    (hviews : m.Views s wide view σ) (hviews' : m.Views s narrow view' σ') (hopen : view ≠ .bare m.owner)
    (d : Descriptor) : d.subst σ == d.subst σ' := by
  have hreach := hviews.reaches
  rw [hbare] at hreach hyes
  have hbelow := Store.below_of_bare_takes hnarrow.raw?_eq hyes
  obtain ⟨e, he, heraw⟩ := hs.exists_reaches hnarrow.wellFormed hnarrow.raw?_eq hbelow
  obtain ⟨w, hw, hsame⟩ := hs.exists_view_of_bare hreach heraw (hs.wellFormed_reaches hnarrow.wellFormed he)
  have hview : view == w := by
    refine hsame.resolve_left ?_
    rintro ⟨b, rfl, _⟩
    cases hviews.raw
    exact hopen rfl
  have hraw : view'.raw? = w.raw? := by rw [hviews'.raw, ← Descriptor.raw?_eq_of_beq hview, hviews.raw]
  have hview' : view' == w := hs.reaches_unique hnarrow.wellFormed (fun y hy => hcarries.keepsOwn y (.inr hy))
    hviews'.reaches (he.trans hw) hraw
  obtain ⟨τ, hτ, hrel⟩ := Store.bindingsFrom_congr (BEq.trans hview (BEq.symm hview')) (Substitution.rel_empty _)
    hviews.bindings
  have hτeq : τ = σ' := Except.ok.inj (hτ.symm.trans hviews'.bindings)
  subst hτeq
  exact Descriptor.beq_subst BEq.rfl fun v _ => hrel v

theorem delivers (hs : s.Coherent) (hcarries : m.CarriesOver s wide narrow) (hwide : wide.MadeIn s)
    (hnarrow : narrow.MadeIn s) {levels : Nat}
    (hyes : (s.asks levels).assignable wide.descriptor narrow.descriptor = .ok true)
    (hviews : m.Views s wide view σ) (hviews' : m.Views s narrow view' σ') (hopen : view ≠ .bare m.owner)
    (hdecl : s.get? m.owner = some decl) (hparams : decl.params ≠ [])
    (hown : ∀ v ∈ m.returns.vars, v ∈ decl.ownVars m.owner) : m.Delivers s σ σ' := by
  have hraw := hwide.raw?_eq
  cases hd : wide.descriptor with
  | bare c =>
    have hbeq := beq_of_bare hs hcarries hnarrow hd hyes hviews hviews' hopen
    exact ⟨fun d _ _ => Store.allows_of_beq (hbeq d), fun v _ => Store.upholds_of_beq (hbeq (.var v))⟩
  | applied owner c args =>
    obtain ⟨ρ, σc, σc', hderives⟩ :=
      exists_derives hs hcarries hwide hnarrow hd hyes hviews hviews' hopen hdecl hparams
    refine ⟨fun d hp => hderives.allows_promised hs hcarries hp fun v hv => hown v (mem_vars_of_promise hp hv),
      fun v hr => hderives.upholds_returned hs hcarries hr (hown v (by simp [hr, Descriptor.vars]))⟩
  | var v =>
    rw [hd] at hraw
    cases hraw
  | wildcard lower upper =>
    rw [hd] at hraw
    cases hraw

/-- A variable that is returned is bound, to a type without variables: left open, it would have no key. -/
theorem closes_returned (ho : s.OwnSupertypes) (hviews' : m.Views s narrow view' σ')
    (hgives' : Gives s m.returns (m.returns.subst σ') k'.descriptor) (hk' : k'.MadeIn s)
    (hnarrow : narrow.descriptor.vars = []) (hdecl : s.get? m.owner = some decl)
    (hown : ∀ v ∈ m.returns.vars, v ∈ decl.ownVars m.owner) {v : TypeVar} (hr : m.returns = .var v) :
    σ'.ClosesOver (fun _ => False) v := by
  have hopen : view' ≠ .bare m.owner := by
    rintro rfl
    cases hviews'.bindings
    rw [hr, Descriptor.subst_eq_self (by simp)] at hgives'
    exact Gives.not_var hk' hgives'
  exact ho.closesOver_of_reaches (by simp [hnarrow]) hviews'.reaches hviews'.raw hopen hviews'.bindings hdecl
    (hown v (by simp [hr, Descriptor.vars]))

end Calls

end Signature

namespace Key

variable {s : Store} {k k' : Key}

theorem exists_level_of_accepts (h : k.accepts s k' = .ok true) :
    ∃ levels, (s.asks levels).assignable k.descriptor k'.descriptor = .ok true := by
  unfold accepts at h
  split at h
  · rename_i heq
    refine ⟨1, ?_⟩
    rw [Store.assignable_questions_succ]
    unfold Store.takes
    exact if_pos heq
  · exact ⟨_, h⟩

theorem accepts_ne_false_of_allows (h : s.Allows k.descriptor k'.descriptor) : k.accepts s k' ≠ .ok false := by
  unfold accepts
  split
  · simp
  · intro hno
    cases (h _ false hno).2 trivial

end Key

/-- A method whose return type mentions only parameters of its class returns, through a receiver that passes for
another one, what is not refused where that of the other is required. -/
theorem returns_covariant (s : Store) (hs : s.Coherent) (m : Signature)
    (hown : ∀ v ∈ m.returns.vars, ∃ decl, s.get? m.owner = some decl ∧ v ∈ decl.ownVars m.owner)
    (wide narrow k k' : Key) (hwide : wide.MadeIn s) (hnarrow : narrow.MadeIn s)
    (hresolved : narrow.isPartial = false) (hcarries : m.CarriesOver s wide narrow)
    (haccepts : wide.accepts s narrow = .ok true) (hk : m.returnKey s wide = .ok k)
    (hk' : m.returnKey s narrow = .ok k') (hpartial : k.isPartial = true → k'.isPartial = true) : k.accepts s k' ≠ .ok false := by
  refine Key.accepts_ne_false_of_allows ?_
  obtain ⟨hmade, seen, hseen, hgives⟩ := Signature.gives_of_returnKey hk
  obtain ⟨hmade', seen', hseen', hgives'⟩ := Signature.gives_of_returnKey hk'
  obtain ⟨view, σ, hviews, hreturns⟩ := Signature.exists_views hseen
  obtain ⟨view', σ', hviews', hreturns'⟩ := Signature.exists_views hseen'
  rw [hreturns] at hgives
  rw [hreturns'] at hgives'
  obtain ⟨levels, hyes⟩ := Key.exists_level_of_accepts haccepts
  have hclosed := hnarrow.closed hresolved
  by_cases hvars : m.returns.vars = []
  · have hself : ∀ τ : Substitution, m.returns.subst τ = m.returns := fun τ =>
      Descriptor.subst_eq_self (by simp [hvars])
    rw [hself] at hgives hgives'
    rw [hgives.unique hgives']
    exact Store.allows_of_beq BEq.rfl
  · obtain ⟨v, hv⟩ := List.exists_mem_of_ne_nil _ hvars
    obtain ⟨decl, hdecl, hmem⟩ := hown v hv
    have hparams : decl.params ≠ [] := by
      intro hnil
      simp [ClassDecl.ownVars, hnil] at hmem
    have hown' : ∀ w ∈ m.returns.vars, w ∈ decl.ownVars m.owner := by
      intro w hw
      obtain ⟨decl', hdecl', hmem'⟩ := hown w hw
      rw [hdecl] at hdecl'
      cases hdecl'
      exact hmem'
    by_cases hopen : view = .bare m.owner
    · subst hopen
      rw [Signature.eq_of_open hs.own hviews hviews' hgives hgives' hmade hmade' hclosed hdecl hown' hpartial]
      exact Store.allows_of_beq BEq.rfl
    · have hdelivers := Signature.delivers hs hcarries hwide hnarrow hyes hviews hviews' hopen hdecl hparams hown'
      exact hdelivers.allows hs hcarries hviews' ⟨seen, hseen, hreturns⟩ ⟨seen', hseen', hreturns'⟩ hgives hgives' hmade
        fun v => Signature.closes_returned hs.own hviews' hgives' hmade' hclosed hdecl hown'

/-! ## Samples -/

/-- The parameter of a class of the sample store. -/
def shapesParam (c : ClassId) : Descriptor := .var ⟨.ofClass c, "T"⟩

def shapesMethod (c : ClassId) (returns : Descriptor) : Signature := ⟨c, "get", [], [], returns⟩

/-- `NumberBox<Integer>` has no wildcard where `Sequence<? extends Number>` has one. -/
theorem shapes_leans_not {v : TypeVar} {bounds : List Descriptor} :
    ¬ shapes.Leans (.generic ⟨5⟩ [.extending (.bare ⟨2⟩)]) (.generic ⟨7⟩ [.bare ⟨3⟩]) v bounds := by
  rintro ⟨c, i, lower, upper, lower', ⟨decl, owner, args, owner', args', _, _, hwide, _, hreach, hi⟩, _⟩
  cases hwide
  have hregular : (shapesKey ⟨7⟩ [.bare ⟨3⟩]).RegularIn shapes := .of_tested 5 rfl (by decide)
  have hview : shapes.Reaches (.generic ⟨7⟩ [.bare ⟨3⟩]) (.generic ⟨5⟩ [.bare ⟨3⟩]) :=
    (Store.reaches_of_asSupertype (by rfl : shapes.asSupertype _ ⟨5⟩ = .ok (some _))).2
  have hsame := shapes_coherent.view_unique hregular.clean hview hreach rfl
  obtain ⟨_, _, heq, _, hargs⟩ := Descriptor.applied_beq_iff.1 hsame
  cases heq
  obtain ⟨d, hd, heq⟩ := Store.exists_getElem?_of_forall₂ (List.Forall₂.flip hargs) hi
  rw [List.getElem?_singleton] at hd
  split at hd
  · cases hd
    cases heq
  · cases hd

/-- A sequence returns one of its elements, or a sequence of them. -/
theorem shapes_carries_over {returns : Descriptor}
    (h : returns = shapesParam ⟨5⟩ ∨ returns = .generic ⟨5⟩ [shapesParam ⟨5⟩]) :
    (shapesMethod ⟨5⟩ returns).CarriesOver shapes (shapesKey ⟨5⟩ [.extending (.bare ⟨2⟩)])
      (shapesKey ⟨7⟩ [.bare ⟨3⟩]) where
  keepsOwn := by
    have hwide : (shapesKey ⟨5⟩ [.extending (.bare ⟨2⟩)]).RegularIn shapes := .of_tested 5 rfl (by decide)
    have hnarrow : (shapesKey ⟨7⟩ [.bare ⟨3⟩]).RegularIn shapes := .of_tested 5 rfl (by decide)
    rintro d (hd | hd)
    · exact (hwide.regular d hd.visits).keepsOwn
    · exact (hnarrow.regular d hd.visits).keepsOwn
  places := by
    rintro d τ hd ⟨t, g, ht, hg, hraw, hτ⟩
    cases ht
    cases Store.eq_of_reaches shapes_coherent.nominal shapes_coherent.acyclic hg hraw
    cases hτ
    rcases h with rfl | rfl
    · cases hd
      exact .inl ⟨_, rfl⟩
    · cases hd
      show _ ∨ Descriptor.Covariant _ _ _ (.applied none ⟨5⟩ [shapesParam ⟨5⟩])
      refine .inr (.applied (by simp) (fun i a ha => .inr (.inl ?_)) (by simp [shapesParam]))
      have hmem := List.mem_singleton.1 (List.mem_of_getElem? ha)
      exact ⟨_, hmem, fun bounds hleans => (shapes_leans_not hleans).elim⟩
  leaning := fun _ _ _ _ _ _ _ hleans => (shapes_leans_not hleans).elim
  several := by
    rintro _ _ _ _ _ _ _ _ hr _ ⟨seen, hseen, hreturns⟩
    rcases h with rfl | rfl
    · cases hseen
      cases hreturns
    · cases hr
  declared := by
    rintro _ _ _ _ _ _ hr _ ⟨seen, hseen, hreturns⟩
    rcases h with rfl | rfl
    · cases hseen
      cases hreturns
    · cases hr

/-- Through `NumberBox<Integer>`, a sequence returns an `Integer` where `Sequence<? extends Number>` promises a
`Number`, and a `Sequence<Integer>` where that promises a `Sequence<? extends Number>`. -/
theorem shapes_keep_promises :
    (∃ k k', (shapesMethod ⟨5⟩ (shapesParam ⟨5⟩)).returnKey shapes (shapesKey ⟨5⟩ [.extending (.bare ⟨2⟩)]) = .ok k ∧
      (shapesMethod ⟨5⟩ (shapesParam ⟨5⟩)).returnKey shapes (shapesKey ⟨7⟩ [.bare ⟨3⟩]) = .ok k' ∧
      k.descriptor = .bare ⟨2⟩ ∧ k'.descriptor = .bare ⟨3⟩ ∧ k.accepts shapes k' ≠ .ok false) ∧
    ∃ k k', (shapesMethod ⟨5⟩ (.generic ⟨5⟩ [shapesParam ⟨5⟩])).returnKey shapes
        (shapesKey ⟨5⟩ [.extending (.bare ⟨2⟩)]) = .ok k ∧
      (shapesMethod ⟨5⟩ (.generic ⟨5⟩ [shapesParam ⟨5⟩])).returnKey shapes (shapesKey ⟨7⟩ [.bare ⟨3⟩]) = .ok k' ∧
      k.descriptor = .generic ⟨5⟩ [.extending (.bare ⟨2⟩)] ∧ k'.descriptor = .generic ⟨5⟩ [.bare ⟨3⟩] ∧
      k.accepts shapes k' ≠ .ok false := by
  have hwide : (shapesKey ⟨5⟩ [.extending (.bare ⟨2⟩)]).MadeIn shapes :=
    ⟨.generic ⟨5⟩ [.extending (.bare ⟨2⟩)], false, rfl⟩
  have hnarrow : (shapesKey ⟨7⟩ [.bare ⟨3⟩]).MadeIn shapes := ⟨.generic ⟨7⟩ [.bare ⟨3⟩], false, rfl⟩
  refine ⟨⟨_, _, rfl, rfl, rfl, rfl, ?_⟩, ⟨_, _, rfl, rfl, rfl, rfl, ?_⟩⟩
  · exact returns_covariant shapes shapes_coherent (shapesMethod ⟨5⟩ (shapesParam ⟨5⟩)) (by decide) _ _ _ _ hwide
      hnarrow rfl (shapes_carries_over (.inl rfl)) (by rfl) rfl rfl (by decide)
  · exact returns_covariant shapes shapes_coherent (shapesMethod ⟨5⟩ (.generic ⟨5⟩ [shapesParam ⟨5⟩])) (by decide)
      _ _ _ _ hwide hnarrow rfl (shapes_carries_over (.inr rfl)) (by rfl) rfl rfl (by decide)

/-- Receivers without variables, of which the narrower passes for the wider while what a method of this return type
returns through it does not. -/
def Store.BreaksPromise (s : Store) (m : Signature) (wide narrow : Descriptor) : Prop :=
  m.typeParams = [] ∧ (∀ v ∈ m.returns.vars, ∃ decl, s.get? m.owner = some decl ∧ v ∈ decl.ownVars m.owner) ∧
    ∃ r r' k k', Key.of s wide = .ok r ∧ Key.of s narrow = .ok r' ∧ r.accepts s r' = .ok true ∧
      m.returnKey s r = .ok k ∧ m.returnKey s r' = .ok k' ∧ k.accepts s k' = .ok false

/-- A promise is broken where the wider receiver leaves its arguments open, where an owner is of the class that it
owns, and where a wildcard is misplaced or known by too little. -/
theorem shapes_break_promises :
    shapes.Coherent ∧
      shapes.BreaksPromise (shapesMethod ⟨5⟩ (.generic ⟨5⟩ [shapesParam ⟨5⟩])) (.bare ⟨5⟩)
        (.generic ⟨5⟩ [.bare ⟨3⟩]) ∧
      shapes.BreaksPromise (shapesMethod ⟨8⟩ (.generic ⟨5⟩ [shapesParam ⟨8⟩])) (.generic ⟨8⟩ [.bare ⟨2⟩])
        (.applied (some (.generic ⟨8⟩ [.bare ⟨4⟩])) ⟨8⟩ [.bare ⟨2⟩]) ∧
      shapes.BreaksPromise (shapesMethod ⟨5⟩ (.generic ⟨5⟩ [.generic ⟨5⟩ [shapesParam ⟨5⟩]]))
        (.generic ⟨5⟩ [.extending (.bare ⟨2⟩)]) (.generic ⟨5⟩ [.bare ⟨3⟩]) ∧
      shapes.BreaksPromise (shapesMethod ⟨5⟩ (.generic ⟨5⟩ [.superOf (shapesParam ⟨5⟩)]))
        (.generic ⟨5⟩ [.extending (.bare ⟨2⟩)]) (.generic ⟨5⟩ [.bare ⟨3⟩]) ∧
      shapes.BreaksPromise (shapesMethod ⟨7⟩ (.generic ⟨5⟩ [.extending (shapesParam ⟨7⟩)]))
        (.generic ⟨7⟩ [.extending (.bare ⟨2⟩)]) (.generic ⟨7⟩ [.unbounded]) ∧
      shapes.BreaksPromise (shapesMethod ⟨7⟩ (.generic ⟨5⟩ [shapesParam ⟨7⟩]))
        (.generic ⟨7⟩ [.extending (.bare ⟨2⟩)]) (.generic ⟨7⟩ [.unbounded]) ∧
      shapes.BreaksPromise (shapesMethod ⟨5⟩ (shapesParam ⟨5⟩)) (.generic ⟨7⟩ [.extending (.bare ⟨2⟩)])
        (.generic ⟨7⟩ [.unbounded]) ∧
      shapes.BreaksPromise (shapesMethod ⟨5⟩ (shapesParam ⟨5⟩)) (.generic ⟨5⟩ [.extending (.bare ⟨2⟩)])
        (.generic ⟨5⟩ [.wildcard [] [.bare ⟨4⟩, .bare ⟨2⟩]]) ∧
      shapes.BreaksPromise (shapesMethod ⟨7⟩ (shapesParam ⟨7⟩)) (.generic ⟨7⟩ [.unbounded])
        (.generic ⟨7⟩ [.extending (.bare ⟨1⟩)]) :=
  ⟨shapes_coherent, ⟨rfl, by decide, _, _, _, _, rfl, rfl, by rfl, by rfl, by rfl, by rfl⟩,
    ⟨rfl, by decide, _, _, _, _, rfl, rfl, by rfl, by rfl, by rfl, by rfl⟩,
    ⟨rfl, by decide, _, _, _, _, rfl, rfl, by rfl, by rfl, by rfl, by rfl⟩,
    ⟨rfl, by decide, _, _, _, _, rfl, rfl, by rfl, by rfl, by rfl, by rfl⟩,
    ⟨rfl, by decide, _, _, _, _, rfl, rfl, by rfl, by rfl, by rfl, by rfl⟩,
    ⟨rfl, by decide, _, _, _, _, rfl, rfl, by rfl, by rfl, by rfl, by rfl⟩,
    ⟨rfl, by decide, _, _, _, _, rfl, rfl, by rfl, by rfl, by rfl, by rfl⟩,
    ⟨rfl, by decide, _, _, _, _, rfl, rfl, by rfl, by rfl, by rfl, by rfl⟩,
    ⟨rfl, by decide, _, _, _, _, rfl, rfl, by rfl, by rfl, by rfl, by rfl⟩⟩

end Generics
