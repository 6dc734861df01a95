import Generics.Proofs.Covers
import Generics.Proofs.Regular

/-! # Assignability composes

If `t` covers `u` and `u` covers `v`, then `t` covers `v`, for regular types of which the one in the middle is free
of capture (`Covers.trans`). A type that covers another is like one of its views, class by class
(`Store.Alike`), and stays so when both are seen through the classes above: there the arguments of both go
into one and the same supertype. So the view of `u` that `t` is like has a view of `v` beside it, and what
remains is to compose argument by argument. Upper bounds compose in one direction and lower bounds in the
other, so the number of levels that goes down is that of both sides together. -/

namespace Generics.Store
set_option autoImplicit false

variable {s : Store} {R : Descriptor → Descriptor → Prop}

/-! ## Types of one class -/

/-- Two types are of one class, and the arguments and owners of the first take those of the second, unless the
first leaves its arguments open. -/
inductive Alike (s : Store) (R : Descriptor → Descriptor → Prop) : Descriptor → Descriptor → Prop
  | bare {c : ClassId} {w : Descriptor} (h : w.raw? = some c) : Alike s R (.bare c) w
  | applied {owner owner' : Option Descriptor} {c : ClassId} {args args' : List Descriptor}
      (ho : ∀ o o', owner = some o → owner' = some o' → s.Takes R o o')
      (ha : List.Forall₂ (s.Fits R) args args') : Alike s R (.applied owner c args) (.applied owner' c args')

theorem alike_of_beq {u w : Descriptor} (hn : u.raw?.isSome) (h : u == w) : s.Alike R u w := by
  cases u with
  | bare c =>
    rw [Descriptor.bare_beq_iff.1 h]
    exact .bare rfl
  | applied owner c args =>
    obtain ⟨owner', args', rfl, howner, hargs⟩ := Descriptor.applied_beq_iff.1 h
    refine .applied ?_ (hargs.imp fun _ _ heq => .inl heq)
    intro o o' ho ho'
    subst ho ho'
    cases howner with
    | some heq => exact .same heq
  | var v => simp [Descriptor.raw?] at hn
  | wildcard lower upper => simp [Descriptor.raw?] at hn

theorem ProperSupertypes.exists_alike (hs : s.ProperSupertypes) {u v : Descriptor} (hn : u.raw?.isSome)
    (hv : s.WellFormed v) (h : s.Takes R u v) : ∃ w, s.Reaches v w ∧ s.Alike R u w := by
  cases h with
  | same heq => exact ⟨v, .refl, alike_of_beq hn heq⟩
  | bare hraw hb =>
    obtain ⟨w, hreach, hw⟩ := hs.exists_reaches hv hraw hb
    exact ⟨w, hreach, .bare hw⟩
  | applied hr ho ha => exact ⟨_, hr, .applied ho ha⟩

theorem ProperSupertypes.below_of_takes (hs : s.ProperSupertypes) {u v : Descriptor} {b : ClassId}
    {b' : ClassId} (hu : u.raw? = some b) (hv : s.WellFormed v) (hb' : v.raw? = some b') (h : s.Takes R u v) :
    s.Below b' b := by
  obtain ⟨w, hreach, halike⟩ := hs.exists_alike (by rw [hu]; rfl) hv h
  have hw : w.raw? = some b := by
    cases halike with
    | bare h =>
      cases hu
      exact h
    | applied _ _ => exact hu
  obtain ⟨p, hp, hup⟩ := hreach.above hs.nominal hb'
  rw [hw] at hp
  cases hp
  exact hup

/-! ## One supertype seen from two types -/

section Subst

variable {p : TypeVar → Prop} {σ τ : Substitution}

/-- A variable is bound to an argument and to one that fits it, to the same one if it has the property `p`. -/
def Tied (s : Store) (R : Descriptor → Descriptor → Prop) (p : TypeVar → Prop) (σ τ : Substitution)
    (v : TypeVar) : Prop :=
  ∃ a a', σ.get? v = some a ∧ τ.get? v = some a' ∧ s.Fits R a a' ∧ (p v → a == a')

theorem beq_subst_of_tied {d : Descriptor} (hp : ∀ v ∈ d.vars, p v) (hv : ∀ v ∈ d.vars, s.Tied R p σ τ v) :
    d.subst σ == d.subst τ := by
  refine Descriptor.beq_subst BEq.rfl fun v hmem => ?_
  obtain ⟨a, a', hσ, hτ, _, heq⟩ := hv v hmem
  rw [hσ, hτ]
  exact .some (heq (hp v hmem))

theorem forall₂_fits_subst {args : List Descriptor}
    (ha : ∀ a ∈ args, (∃ v, a = .var v) ∨ ∀ v ∈ a.vars, p v)
    (hv : ∀ a ∈ args, ∀ v ∈ a.vars, s.Tied R p σ τ v) :
    List.Forall₂ (s.Fits R) (args.map (Descriptor.subst σ)) (args.map (Descriptor.subst τ)) := by
  rw [List.forall₂_map_left_iff, List.forall₂_map_right_iff]
  refine List.forall₂_same.2 fun a hmem => ?_
  rcases ha a hmem with ⟨v, rfl⟩ | hp
  · obtain ⟨b, b', hσ, hτ, hfits, _⟩ := hv _ hmem v (by simp [Descriptor.vars])
    simpa [Descriptor.subst, hσ, hτ] using hfits
  · exact .inl (beq_subst_of_tied hp (hv a hmem))

/-- Fitting arguments put into a plain supertype make types of which one takes the other. -/
theorem takes_subst {d : Descriptor} (h : d.Plain p) (hv : ∀ v ∈ d.vars, s.Tied R p σ τ v) :
    s.Takes R (d.subst σ) (d.subst τ) := by
  induction h with
  | fixed hp => exact .same (beq_subst_of_tied hp hv)
  | @applied owner c args _ ha ih =>
    simp only [Descriptor.subst, Descriptor.substOwner_eq, Descriptor.substList_eq]
    refine .applied .refl ?_
      (forall₂_fits_subst ha fun a hmem v hmemv => hv v (Descriptor.mem_vars_arg hmem hmemv))
    intro o o' ho ho'
    obtain ⟨x, rfl, rfl⟩ := Option.map_eq_some_iff.1 ho
    cases ho'
    exact ih x rfl fun v hmem => hv v (Descriptor.mem_vars_owner hmem)

theorem alike_subst {d : Descriptor} (h : d.Plain p) (hn : d.raw?.isSome)
    (hv : ∀ v ∈ d.vars, s.Tied R p σ τ v) : s.Alike R (d.subst σ) (d.subst τ) := by
  cases h with
  | fixed hp => exact alike_of_beq (raw?_isSome_subst σ hn) (beq_subst_of_tied hp hv)
  | @applied owner c args howner ha =>
    simp only [Descriptor.subst, Descriptor.substOwner_eq, Descriptor.substList_eq]
    refine .applied ?_
      (forall₂_fits_subst ha fun a hmem v hmemv => hv v (Descriptor.mem_vars_arg hmem hmemv))
    intro o o' ho ho'
    obtain ⟨x, rfl, rfl⟩ := Option.map_eq_some_iff.1 ho
    cases ho'
    exact takes_subst (howner x rfl) fun v hmem => hv v (Descriptor.mem_vars_owner hmem)

end Subst

theorem Fits.beq_of_not_wildcard {a a' : Descriptor} (h : s.Fits R a a')
    (hw : ∀ lower upper, a ≠ .wildcard lower upper) : a == a' := by
  rcases h with heq | ⟨lower, upper, heq, _⟩
  · exact heq
  · exact absurd heq (hw lower upper)

/-- Types that are alike stay so when they are seen as a supertype. -/
theorem Alike.step (hs : s.Coherent) {u u' w : Descriptor} (hu : s.Clean u) (hfree : s.Uncaptured u)
    (hw : s.Clean w) (h : s.Alike R u w) (hstep : s.Step u u') : ∃ w', s.Step w w' ∧ s.Alike R u' w' := by
  obtain ⟨τ, hτ, -⟩ := hw.wellFormed.bindingsOf
  cases h with
  | bare hraw =>
    cases hstep with
    | opened hc hp hmem hsup =>
      obtain ⟨w', hw', hraw'⟩ := hw.wellFormed.exists_step hraw hc hmem hsup
      exact ⟨w', hw', .bare hraw'⟩
    | @bound _ c decl supertype σ hd hc hopen hmem hσ =>
      cases hd
      have hclosed : ∀ v ∈ supertype.vars, s.Tied R (fun _ => True) σ τ v := by
        intro v hv
        have hown := hs.own _ decl hc supertype hmem v hv
        simp [ClassDecl.ownVars, hopen rfl] at hown
      exact ⟨supertype.subst τ, .of_bindingsOf hraw hc (fun _ => hopen rfl) hmem hτ,
        alike_subst (.fixed fun _ _ => trivial) (hs.nominal _ decl hc supertype hmem) hclosed⟩
  | @applied owner owner' c args args' ho ha =>
    cases hstep with
    | @bound _ c decl supertype ρ hd hc hopen hmem hρ =>
      obtain ⟨σ, hσ, hsame⟩ := hρ.exists_bindingsOf
      rw [hsame]
      cases hd
      refine ⟨supertype.subst τ, .of_bindingsOf rfl hc (fun heq => by cases heq) hmem hτ,
        alike_subst (hfree owner c args decl rfl hc supertype hmem) (hs.nominal c decl hc supertype hmem) ?_⟩
      intro v hv
      obtain ⟨a, a', _, _, hget, hget', hfits⟩ :=
        hs.own.rel hc hmem hu.tidy.keepsOwn hw.tidy.keepsOwn hσ hτ ha (hu.wellFormed.arity_eq hc) v hv
      refine ⟨a, a', hget, hget', hfits, fun hp => hfits.beq_of_not_wildcard fun lower upper heq => ?_⟩
      obtain ⟨q, _, rfl⟩ := List.mem_map.1 (hs.own c decl hc supertype hmem v hv)
      refine hp lower upper ?_
      rw [← get?_bindingsOf hu.tidy.keepsOwn hc hσ q.name, hget, heq]

/-- Beside every view of the first of two alike types stands one of the second. -/
theorem Alike.reaches (hs : s.Coherent) {u u' w : Descriptor} (hu : s.Clean u) (hfree : s.CaptureFree u)
    (hw : s.Clean w) (h : s.Alike R u w) (hreach : s.Reaches u u') : ∃ w', s.Reaches w w' ∧ s.Alike R u' w' := by
  let P : Descriptor → Descriptor → Prop := fun u w =>
    s.Clean u ∧ s.CaptureFree u ∧ s.Clean w ∧ s.Alike R u w
  have hstep : ∀ u w u', P u w → s.Step u u' → ∃ w', s.Step w w' ∧ P u' w' := by
    rintro u w u' ⟨hu, hfree, hw, h⟩ hstep
    obtain ⟨w', hw', h'⟩ := Alike.step hs hu (hfree u .refl) hw h hstep
    exact ⟨w', hw', hs.clean_leads hu (.step hstep), hfree.visits (.single (.step hstep)),
      hs.clean_leads hw (.step hw'), h'⟩
  obtain ⟨w', hw', _, _, _, h'⟩ := hreach.simulate (R := P) hstep ⟨hu, hfree, hw, h⟩
  exact ⟨w', hw', h'⟩

/-! ## Argument by argument -/

section Trans

variable {R₁ R₂ R₃ : Descriptor → Descriptor → Prop}

/-- Two relations compose to a third, in either order, as long as the type in the middle is free of capture. -/
structure Composes (s : Store) (R₁ R₂ R₃ : Descriptor → Descriptor → Prop) : Prop where
  forth : ∀ {t u v}, s.Clean t → s.Clean u → s.CaptureFree u → s.Clean v → R₁ t u → R₂ u v → R₃ t v
  back : ∀ {t u v}, s.Clean t → s.Clean u → s.CaptureFree u → s.Clean v → R₂ t u → R₁ u v → R₃ t v
  left : ∀ t u, R₁ t u → R₃ t u
  right : ∀ t u, R₂ t u → R₃ t u
  root : ∀ {t v r}, s.root = some r → s.Clean v → R₁ t (.bare r) → R₃ t v

theorem mem_impliedUpper {upper : List Descriptor} {u : Descriptor} (h : u ∈ s.impliedUpper upper) :
    u ∈ upper ∨ upper = [] ∧ ∃ r, s.root = some r ∧ u = .bare r := by
  unfold impliedUpper at h
  split at h
  · rename_i hempty
    obtain ⟨r, hr, rfl⟩ := List.mem_map.1 h
    exact .inr ⟨List.isEmpty_iff.1 hempty, r, Option.mem_toList.1 hr, rfl⟩
  · exact .inl h

theorem mem_impliedUpper_of_mem {upper : List Descriptor} {u : Descriptor} (h : u ∈ upper) :
    u ∈ s.impliedUpper upper := by
  unfold impliedUpper
  split
  · rename_i hempty
    rw [List.isEmpty_iff.1 hempty] at h
    simp at h
  · exact h

theorem Within.of_beq (hR : ∀ t u, (t == u) = true → R t u) {lower upper : List Descriptor} {d : Descriptor}
    (h : Descriptor.wildcard lower upper == d) : s.Within R lower upper d := by
  obtain ⟨lower', upper', rfl, hl, hu⟩ := Descriptor.wildcard_beq_iff.1 h
  refine ⟨fun u hmem => ?_, fun l hmem => ?_⟩
  · obtain ⟨u', hu', heq⟩ := hu.1 u hmem
    exact ⟨u', mem_impliedUpper_of_mem hu', hR u u' heq⟩
  · obtain ⟨l', hl', heq⟩ := hl.1 l hmem
    exact ⟨l', hl', hR l' l (BEq.symm heq)⟩

theorem Coherent.clean_impliedUpper (hs : s.Coherent) {upper : List Descriptor} {d u : Descriptor}
    (hd : s.Clean d) (hupper : ∀ u ∈ upper, s.Clean u) (hu : u ∈ s.impliedUpper upper) : s.Clean u := by
  rcases mem_impliedUpper hu with hu | ⟨_, r, hr, rfl⟩
  · exact hupper u hu
  · exact hs.clean_root hr hd

/-- A bound that is above all types is above some upper bound of every wildcard. -/
theorem Composes.exists_upper (hR : s.Composes R₁ R₂ R₃) {t : Descriptor} {r : ClassId}
    {upper : List Descriptor} (hr : s.root = some r) (hu : ∀ u ∈ upper, s.Clean u) (h : R₁ t (.bare r)) :
    ∃ u ∈ s.impliedUpper upper, R₃ t u := by
  cases upper with
  | nil => exact ⟨.bare r, by simp [impliedUpper, hr], hR.left t _ h⟩
  | cons u upper =>
    have hmem : u ∈ u :: upper := List.mem_cons_self
    exact ⟨u, mem_impliedUpper_of_mem hmem, hR.root hr (hu u hmem) h⟩

theorem Within.trans (hs : s.Coherent) (hR : s.Composes R₁ R₂ R₃)
    {lower upper lower' upper' : List Descriptor} {d : Descriptor}
    (hc : ArgAll s.Clean (.wildcard lower upper)) (hc' : ArgAll s.Clean (.wildcard lower' upper'))
    (hfree : ArgAll s.CaptureFree (.wildcard lower' upper')) (hd : ArgAll s.Clean d)
    (h : s.Within R₁ lower upper (.wildcard lower' upper')) (h' : s.Within R₂ lower' upper' d) :
    s.Within R₃ lower upper d := by
  have plain : s.Clean d → (∀ u ∈ upper', R₂ u d) ∧ (∀ l ∈ lower', R₂ d l) →
      (∀ u ∈ upper, R₃ u d) ∧ ∀ l ∈ lower, R₃ d l := by
    rintro hd ⟨hupper, hlower⟩
    refine ⟨fun u hu => ?_, fun l hl => ?_⟩
    · obtain ⟨x, hx, hux⟩ := h.1 u hu
      rcases mem_impliedUpper hx with hx | ⟨_, r, hr, rfl⟩
      · exact hR.forth (hc.2 u hu) (hc'.2 x hx) (hfree.2 x hx) hd hux (hupper x hx)
      · exact hR.root hr hd hux
    · obtain ⟨x, hx, hxl⟩ := h.2 l hl
      exact hR.back hd (hc'.1 x hx) (hfree.1 x hx) (hc.1 l hl) (hlower x hx) hxl
  cases d with
  | wildcard lower₂ upper₂ =>
    refine ⟨fun u hu => ?_, fun l hl => ?_⟩
    · obtain ⟨x, hx, hux⟩ := h.1 u hu
      rcases mem_impliedUpper hx with hx | ⟨_, r, hr, rfl⟩
      · obtain ⟨y, hy, hxy⟩ := h'.1 x hx
        have hclean := hs.clean_impliedUpper (hc'.2 x hx) hd.2 hy
        exact ⟨y, hy, hR.forth (hc.2 u hu) (hc'.2 x hx) (hfree.2 x hx) hclean hux hxy⟩
      · exact hR.exists_upper hr hd.2 hux
    · obtain ⟨x, hx, hxl⟩ := h.2 l hl
      obtain ⟨y, hy, hyx⟩ := h'.2 x hx
      exact ⟨y, hy, hR.back (hd.1 y hy) (hc'.1 x hx) (hfree.1 x hx) (hc.1 l hl) hyx hxl⟩
  | bare c => exact plain hd h'
  | applied owner c args => exact plain hd h'
  | var v => exact plain hd h'

theorem Fits.trans (hs : s.Coherent) (hR : s.Composes R₁ R₂ R₃) (hR₁ : Respects R₁) (hR₂ : Respects R₂)
    {r a b : Descriptor} (hr : ArgAll s.Clean r) (ha : ArgAll s.Clean a) (hfree : ArgAll s.CaptureFree a)
    (hb : ArgAll s.Clean b) (h : s.Fits R₁ r a) (h' : s.Fits R₂ a b) : s.Fits R₃ r b := by
  rcases h with heq | ⟨lower, upper, rfl, hw⟩
  · exact (h'.congr hR₂ (BEq.symm heq) BEq.rfl).mono hR.right
  · rcases h' with heq | ⟨lower', upper', rfl, hw'⟩
    · exact (Fits.congr hR₁ BEq.rfl heq (.inr ⟨lower, upper, rfl, hw⟩)).mono hR.left
    · exact .inr ⟨lower, upper, rfl, hw.trans hs hR hr ha hfree hb hw'⟩

theorem forall₂_fits_trans (hs : s.Coherent) (hR : s.Composes R₁ R₂ R₃) (hR₁ : Respects R₁)
    (hR₂ : Respects R₂) {rs as bs : List Descriptor} (hr : ∀ r ∈ rs, ArgAll s.Clean r)
    (ha : ∀ a ∈ as, ArgAll s.Clean a) (hfree : ∀ a ∈ as, ArgAll s.CaptureFree a)
    (hb : ∀ b ∈ bs, ArgAll s.Clean b) (h : List.Forall₂ (s.Fits R₁) rs as)
    (h' : List.Forall₂ (s.Fits R₂) as bs) : List.Forall₂ (s.Fits R₃) rs bs := by
  induction h generalizing bs with
  | nil =>
    cases h'
    exact .nil
  | cons hra _ ih =>
    cases h' with
    | cons hab hrest =>
      obtain ⟨hr, hrs⟩ := List.forall_mem_cons.1 hr
      obtain ⟨ha, has⟩ := List.forall_mem_cons.1 ha
      obtain ⟨hfree, hfrees⟩ := List.forall_mem_cons.1 hfree
      obtain ⟨hb, hbs⟩ := List.forall_mem_cons.1 hb
      exact .cons (hra.trans hs hR hR₁ hR₂ hr ha hfree hb hab) (ih hrs has hfrees hbs hrest)

/-! ## Level by level -/

/-- One level composes if what it asks one level down does. -/
theorem Takes.trans (hs : s.Coherent) (hR : s.Composes R₁ R₂ R₃) (hR₁ : Respects R₁) (hR₂ : Respects R₂)
    {t u v : Descriptor} (ht : s.Clean t) (hu : s.Clean u) (hfree : s.CaptureFree u) (hv : s.Clean v)
    (h : s.Takes R₁ t u) (h' : s.Takes R₂ u v) : s.Takes R₃ t v := by
  induction h generalizing v with
  | same heq => exact (h'.congr hR₂ (BEq.symm heq) BEq.rfl).mono hR.right
  | bare hraw hb =>
    obtain ⟨b', hb'⟩ := hv.exists_raw?
    exact .bare hb' ((hs.below_of_takes hraw hv.wellFormed hb' h').trans hb)
  | @applied owner owner' c args args' u hr ho ha ih =>
    obtain ⟨b, hb⟩ := hu.exists_raw?
    -- the view of `v` beside the view of `u` that the application is compared with
    obtain ⟨w, hvw, halike⟩ := hs.exists_alike (by rw [hb]; rfl) hv.wellFormed h'
    have hw := hs.clean_reaches hv hvw
    obtain ⟨w', hww', halike'⟩ := halike.reaches hs hu hfree hw hr
    have hu' := hs.clean_reaches hu hr
    have hfree' := hfree.visits hr.visits
    have hw' := hs.clean_reaches hw hww'
    cases halike' with
    | @applied _ owner'' _ _ args'' ho' ha' =>
      have hargs := forall₂_fits_trans hs hR hR₁ hR₂ (argAll_of_leads fun e he => hs.clean_leads ht he)
        (argAll_of_leads fun e he => hs.clean_leads hu' he)
        (argAll_of_leads fun e he => hfree'.visits (.single he))
        (argAll_of_leads fun e he => hs.clean_leads hw' he) ha ha'
      refine .applied (hvw.trans hww') ?_ hargs
      intro o o'' hown hown''
      subst hown hown''
      -- all three have owners, since the class is inside another
      obtain ⟨decl, hdecl⟩ := ht.wellFormed.declared rfl
      have howned := ht.tidy.owned _ _ _ decl rfl hdecl
      have howned' := hu'.tidy.owned _ _ _ decl rfl hdecl
      rw [← howned] at howned'
      obtain ⟨o', rfl⟩ := Option.isSome_iff_exists.1 howned'
      have hlead : s.Leads (.applied (some o') c args') o' := .owner o' c args'
      exact ih o o' rfl rfl (hs.clean_leads ht (.owner o c args)) (hs.clean_leads hu' hlead)
        (hfree'.visits (.single hlead)) (hs.clean_leads hw' (.owner o'' c args'')) (ho' o' o'' rfl rfl)

theorem Takes.of_root (hs : s.Coherent) {t v : Descriptor} {r : ClassId} (hr : s.root = some r)
    (hv : s.Clean v) (h : s.Takes R t (.bare r)) {R' : Descriptor → Descriptor → Prop} : s.Takes R' t v := by
  obtain ⟨b, hb, hbelow⟩ := hs.below_root hr hv
  cases h with
  | same heq =>
    rw [Descriptor.bare_beq_iff.1 (BEq.symm heq)]
    exact .bare hb hbelow
  | bare hraw hup =>
    cases hraw
    exact .bare hb (hbelow.trans hup)
  | applied hreach ho ha => cases hs.eq_root_of_visits hr hreach.visits

theorem CoversIn.trans (hs : s.Coherent) {n m : Nat} {t u v : Descriptor} (ht : s.Clean t) (hu : s.Clean u)
    (hfree : s.CaptureFree u) (hv : s.Clean v) (h : s.CoversIn n t u) (h' : s.CoversIn m u v) :
    s.CoversIn (n + m) t v := by
  -- on the levels of both sides together, since lower bounds are compared with the sides exchanged
  induction hN : n + m using Nat.strongRecOn generalizing n m t u v with
  | ind N ih =>
    subst hN
    cases n with
    | zero => exact h.elim
    | succ n =>
      cases m with
      | zero => exact h'.elim
      | succ m =>
        have hR : s.Composes (s.CoversIn n) (s.CoversIn m) (s.CoversIn (n + 1 + m)) := by
          refine ⟨?_, ?_, ?_, ?_, ?_⟩
          · intro t u v ht hu hfree hv h h'
            exact (ih (n + m) (by omega) ht hu hfree hv h h' rfl).mono (by omega)
          · intro t u v ht hu hfree hv h h'
            exact (ih (m + n) (by omega) ht hu hfree hv h h' rfl).mono (by omega)
          · exact fun t u h => h.mono (by omega)
          · exact fun t u h => h.mono (by omega)
          · intro t v r hr hv h
            cases n with
            | zero => exact h.elim
            | succ n =>
              have hone : s.CoversIn (n + 1) t v := Takes.of_root hs hr hv h
              exact hone.mono (by omega)
        exact Takes.trans hs hR (respects_coversIn n) (respects_coversIn m) ht hu hfree hv h h'

theorem Covers.trans (hs : s.Coherent) {t u v : Descriptor} (ht : s.Clean t) (hu : s.Clean u)
    (hfree : s.CaptureFree u) (hv : s.Clean v) (h : s.Covers t u) (h' : s.Covers u v) : s.Covers t v := by
  obtain ⟨n, hn⟩ := h
  obtain ⟨m, hm⟩ := h'
  exact ⟨n + m, hn.trans hs ht hu hfree hv hm⟩

end Trans

end Generics.Store
