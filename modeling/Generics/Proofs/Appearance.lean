import Generics.Proofs.Linearization
import Generics.Proofs.Provenance
import Generics.Proofs.Reports

/-! # Equal keys look alike

Keys made in one store carry the texts of their descriptors, so equal keys are displayed alike and stand at one place
in text order. Whatever names a key in a fault names it by this text, so a cast, a view from above, a tag, the filling
of placeholders by position and a call report the same, whichever of two equal keys they are given, as far as they are
not cut short by a fault of a check (`SameReport`). -/

namespace Generics
set_option autoImplicit false

open Result

namespace Key

variable {s : Store} {hasher : Hasher} {a a' k k' : Key} {keys keys' : List Key}

/-- Equal keys that were made in one store. -/
structure EqualIn (s : Store) (a a' : Key) : Prop where
  left : a.MadeIn s
  right : a'.MadeIn s
  same : a == a'

theorem EqualIn.of_template (ha : template s a.descriptor = .ok a) (ha' : template s a'.descriptor = .ok a')
    (h : a == a') : a.EqualIn s a' :=
  ⟨⟨a.descriptor, true, ha⟩, ⟨a'.descriptor, true, ha'⟩, h⟩

theorem EqualIn.descriptor_beq (h : a.EqualIn s a') : a.descriptor == a'.descriptor := h.same

/-! ## Display and text order -/

theorem EqualIn.rank_eq (hasher : Hasher) (h : a.EqualIn s a') : a.rank hasher = a'.rank hasher :=
  h.left.rank_eq hasher h.right h.same

theorem EqualIn.text_eq (h : a.EqualIn s a') : a.text = a'.text := by
  rw [h.left.text_eq, h.right.text_eq, s.text_eq_of_beq h.same]

theorem EqualIn.textOrder_congr (h : a.EqualIn s a') (hk : k.EqualIn s k') :
    textOrder hasher a k = textOrder hasher a' k' := by
  rw [textOrder_eq, textOrder_eq, h.rank_eq, hk.rank_eq]

theorem forall₂_equalIn_iff :
    List.Forall₂ (EqualIn s) keys keys' ↔
      (∀ k ∈ keys, k.MadeIn s) ∧ (∀ k ∈ keys', k.MadeIn s) ∧ List.Forall₂ (· == ·) keys keys' := by
  constructor
  · intro h
    induction h with
    | nil => exact ⟨by simp, by simp, .nil⟩
    | cons hk _ ih =>
      obtain ⟨hl, hr, hsame⟩ := ih
      exact ⟨List.forall_mem_cons.2 ⟨hk.left, hl⟩, List.forall_mem_cons.2 ⟨hk.right, hr⟩, .cons hk.same hsame⟩
  · rintro ⟨hl, hr, hsame⟩
    induction hsame with
    | nil => exact .nil
    | cons hk _ ih =>
      obtain ⟨hk₁, hl⟩ := List.forall_mem_cons.1 hl
      obtain ⟨hk₂, hr⟩ := List.forall_mem_cons.1 hr
      exact .cons ⟨hk₁, hk₂, hk⟩ (ih hl hr)

theorem forall₂_insertBy (hk : k.EqualIn s k') (h : List.Forall₂ (EqualIn s) keys keys') :
    List.Forall₂ (EqualIn s) (insertBy (textOrder hasher) k keys) (insertBy (textOrder hasher) k' keys') := by
  induction h with
  | nil => exact .cons hk .nil
  | cons hl hls ih =>
    rw [insertBy, insertBy, hk.textOrder_congr hl]
    split
    · exact .cons hl ih
    · exact .cons hk (.cons hl hls)

theorem forall₂_sortByText_of_equalIn (h : List.Forall₂ (EqualIn s) keys keys') :
    List.Forall₂ (EqualIn s) (sortByText hasher keys) (sortByText hasher keys') := by
  induction h with
  | nil => exact .nil
  | cons hk _ ih => exact forall₂_insertBy hk ih

/-! ## Checks that a sort makes -/

theorem failsAsCheck_accepts (a k : Key) : FailsAsCheck (a.accepts s k) := by
  unfold accepts
  split
  · exact trivial
  · exact s.failsAsCheck_isAssignable _ _

theorem failsAsCheck_moreSpecific (a k : Key) : FailsAsCheck (a.moreSpecific s k) := by
  unfold moreSpecific
  split
  · exact trivial
  · refine (failsAsCheck_accepts k a).bind fun below => ?_
    cases below with
    | false => exact trivial
    | true => exact (failsAsCheck_accepts a k).bind fun _ => trivial

theorem failsAsCheck_pickMinimal? (keys candidates : List Key) : FailsAsCheck (pickMinimal? s keys candidates) := by
  induction candidates with
  | nil => exact trivial
  | cons k candidates ih =>
    have hminimal : FailsAsCheck (isMinimal s keys k) :=
      FailsAsCheck.bind (ensures_anyM fun other _ => failsAsCheck_moreSpecific other k) fun _ => trivial
    rw [pickMinimal?]
    refine hminimal.bind fun minimal => ?_
    cases minimal with
    | true => exact trivial
    | false => exact ih.bind fun _ => trivial

theorem failsAsCheck_linearize (count : Nat) (keys : List Key) : FailsAsCheck (linearize s count keys) := by
  induction count generalizing keys with
  | zero => exact trivial
  | succ count ih =>
    have hpick : FailsAsCheck (pickFirst? s keys) := by
      refine (failsAsCheck_pickMinimal? keys keys).bind fun pick => ?_
      cases pick <;> exact trivial
    rw [linearize]
    refine hpick.bind fun pick => ?_
    cases pick with
    | none => exact trivial
    | some pick => exact (ih pick.2).bind fun _ => trivial

theorem mem_of_sort {out : List Key} (h : sort hasher s keys = .ok out) (k : Key) : k ∈ out ↔ k ∈ keys :=
  ((perm_linearize (perm_sortByText hasher keys).length_eq h).trans (perm_sortByText hasher keys)).mem_iff

/-- Lists of equal keys are sorted into lists of equal keys. -/
theorem sameReport_sort (h : List.Forall₂ (EqualIn s) keys keys') :
    SameReport (List.Forall₂ (EqualIn s)) (sort hasher s keys) (sort hasher s keys') := by
  obtain ⟨hl, hr, _⟩ := forall₂_equalIn_iff.1 h
  obtain ⟨_, _, hsorted⟩ := forall₂_equalIn_iff.1 (forall₂_sortByText_of_equalIn h)
  -- The keys that are picked are equal one by one, and made in the store as all those that were given.
  refine .of_agree (fun out out' hout hout' => forall₂_equalIn_iff.2 ⟨fun k hk => ?_, fun k hk => ?_, ?_⟩)
    (failsAsCheck_linearize _ _) (failsAsCheck_linearize _ _)
  · exact hl k ((mem_of_sort hout k).1 hk)
  · exact hr k ((mem_of_sort hout' k).1 hk)
  · rw [sort, h.length_eq] at hout
    exact agree_linearize _ hsorted out out' hout hout'

theorem sameReport_accepts (ha : a.EqualIn s a') (hk : k.EqualIn s k') :
    SameReport (· = ·) (a.accepts s k) (a'.accepts s k') :=
  .of_agree (agree_accepts ha.same hk.same) (failsAsCheck_accepts a k) (failsAsCheck_accepts a' k')

theorem sameReport_compareBySpecificity (ha : a.EqualIn s a') (hk : k.EqualIn s k') :
    SameReport (· = ·) (a.compareBySpecificity hasher s k) (a'.compareBySpecificity hasher s k') := by
  have hsame : (a == k) = (a' == k') := by rw [BEq.congr_left ha.same, BEq.congr_right hk.same]
  unfold compareBySpecificity
  rw [hsame]
  split
  · exact rfl
  · refine (sameReport_accepts hk ha).bind fun below below' _ hbelow => ?_
    refine (sameReport_accepts ha hk).bind fun above above' _ habove => ?_
    cases hbelow
    cases habove
    cases below <;> cases above
    · exact ha.textOrder_congr hk
    all_goals exact rfl

/-! ## Making keys -/

section Making

variable {d e : Descriptor}

theorem exists_freeze_of_beq (h : d == e) {allowVars : Bool} (hd : freeze s d allowVars = .ok k) :
    ∃ k', freeze s e allowVars = .ok k' := by
  obtain ⟨hwf, hresolved, c, hraw, _⟩ := freeze_eq_ok_iff.1 hd
  refine ⟨_, freeze_eq_ok_iff.2 ⟨hwf.of_beq h, ?_, c, ?_, rfl⟩⟩
  · exact fun hno => (Descriptor.vars_eq_nil_iff_of_beq h).1 (hresolved hno)
  · rw [← Descriptor.raw?_eq_of_beq h, hraw]

theorem descriptor_of_freeze {allowVars : Bool} (h : freeze s d allowVars = .ok k) : k.descriptor = d := by
  obtain ⟨_, _, c, _, rfl⟩ := freeze_eq_ok_iff.1 h
  rfl

theorem agree_freeze (h : d == e) (allowVars allowVars' : Bool) :
    Agree (EqualIn s) (freeze s d allowVars) (freeze s e allowVars') := by
  intro k k' hk hk'
  refine ⟨⟨d, allowVars, hk⟩, ⟨e, allowVars', hk'⟩, ?_⟩
  rw [beq_eq, descriptor_of_freeze hk, descriptor_of_freeze hk']
  exact h

theorem sameReport_freeze (h : d == e) (allowVars allowVars' : Bool) :
    SameReport (EqualIn s) (freeze s d allowVars) (freeze s e allowVars') :=
  .of_agree (agree_freeze h allowVars allowVars') (Store.failsAsCheck_freeze d allowVars)
    (Store.failsAsCheck_freeze e allowVars')

theorem together_freeze (h : d == e) (allowVars : Bool) :
    Together (EqualIn s) (freeze s d allowVars) (freeze s e allowVars) := by
  have hagree := agree_freeze (s := s) h allowVars allowVars
  cases hd : freeze s d allowVars with
  | ok k =>
    obtain ⟨k', he⟩ := exists_freeze_of_beq h hd
    rw [he]
    exact .ok (hagree k k' hd he)
  | error fault =>
    cases he : freeze s e allowVars with
    | error fault' => exact .error fault fault'
    | ok k' =>
      obtain ⟨k, hd'⟩ := exists_freeze_of_beq (BEq.symm h) he
      cases hd.symm.trans hd'

end Making

/-! ## From key to key -/

theorem sameReport_upcast (h : a.EqualIn s a') (ancestor : ClassId) :
    SameReport (EqualIn s) (a.upcast s ancestor) (a'.upcast s ancestor) := by
  refine SameReport.bind (Relator.reports.refl (s.require ancestor)) fun _ _ _ _ => ?_
  refine (Store.sameReport_asSupertype h.same ancestor).bind fun found found' _ hfound => ?_
  cases hfound with
  | none => exact .inl (by rw [h.text_eq])
  | @some d d' hd =>
    have hsame : (d == a.descriptor) = (d' == a'.descriptor) := by
      rw [BEq.congr_left hd, BEq.congr_right h.descriptor_beq]
    dsimp only
    rw [hsame]
    split
    · exact h
    · exact sameReport_freeze hd _ _

theorem sameReport_actualize_queue (h : a.EqualIn s a') {items items' : List Descriptor}
    (hitems : List.Forall₂ (· == ·) items items') :
    SameReport (EqualIn s) (a.actualize s (.queue items)) (a'.actualize s (.queue items')) :=
  (Store.sameReport_actualize_queue h.same hitems).bind fun _ _ _ heq => sameReport_freeze heq false false

theorem together_actualize_map (h : a.EqualIn s a') (σ : Substitution) :
    Together (EqualIn s) (a.actualize s (.map σ)) (a'.actualize s (.map σ)) :=
  (Store.together_actualize_map h.same σ).bind fun _ _ _ heq => together_freeze heq false

/-! ## Casts and tags -/

theorem sameReport_cast {α : Type} (value : α) (hk : k.EqualIn s k') (ha : a.EqualIn s a') :
    SameReport (fun b b' => b.key.EqualIn s b'.key ∧ b.value = b'.value) ((Box.mk k value).cast s a)
      ((Box.mk k' value).cast s a') := by
  have hvalue : SameReport (· = ·) ((Box.mk k value).valueAs s a) ((Box.mk k' value).valueAs s a') := by
    refine (sameReport_accepts ha hk).bind fun yes yes' _ heq => ?_
    cases heq
    cases yes with
    | true => exact rfl
    | false => exact .inl (by rw [ha.text_eq, hk.text_eq])
  exact hvalue.bind fun _ _ _ heq => ⟨ha, heq⟩

theorem verify_eq_of_equalIn (hk : k.EqualIn s k') (ha : a.EqualIn s a') :
    (Tag.ofKey k).verify a = (Tag.ofKey k').verify a' := by
  have hsame : (k.descriptor == a.descriptor) = (k'.descriptor == a'.descriptor) := by
    rw [BEq.congr_left hk.descriptor_beq, BEq.congr_right ha.descriptor_beq]
  rw [Tag.verify, Tag.verify, Tag.ofKey, Tag.ofKey, hsame, ha.text_eq, hk.text_eq]

end Key

/-! ## Calls -/

namespace Signature

variable {s : Store} {m : Signature} {receiver receiver' arg arg' : Key} {known known' : Substitution}

/-- One method, seen with types that are the same. -/
structure Same (m m' : Signature) : Prop where
  owner : m.owner = m'.owner
  name : m.name = m'.name
  typeParams : m.typeParams = m'.typeParams
  params : List.Forall₂ (· == ·) m.params m'.params
  returns : m.returns == m'.returns

theorem sameReport_actualizeFor (m : Signature) (h : receiver.EqualIn s receiver') :
    SameReport Same (m.actualizeFor s receiver) (m.actualizeFor s receiver') := by
  refine (Store.sameReport_asSupertype h.same m.owner).bind fun view view' _ hview => ?_
  cases hview with
  | none => exact .inl (by rw [h.text_eq])
  | some hview =>
    refine (Store.sameReport_bindingsOf hview).bind fun σ τ _ hσ => ?_
    have hparams : SameReport (List.Forall₂ (· == ·)) (m.params.mapM fun d => s.actualize d (.map σ))
        (m.params.mapM fun d => s.actualize d (.map τ)) :=
      Relator.reports.mapM (List.forall₂_same.2 fun d _ => Store.sameReport_actualize_map hσ d)
    refine hparams.bind fun _ _ _ hparams => ?_
    refine (Store.sameReport_actualize_map hσ m.returns).bind fun _ _ _ hreturns => ?_
    exact ⟨rfl, rfl, rfl, hparams, hreturns⟩

/-- The keys returned may differ, since a wildcard is known by the first of its bounds. -/
theorem sameReport_returnKey (m : Signature) (h : receiver.EqualIn s receiver') :
    SameReport (fun _ _ => True) (m.returnKey s receiver) (m.returnKey s receiver') := by
  refine (sameReport_actualizeFor m h).bind fun seen seen' _ _ => .of_failsAsCheck ?_ ?_
  all_goals
    split
    · split
      · exact Store.failsAsCheck_freeze _ false
      · exact rfl
    · split <;> exact Store.failsAsCheck_freeze _ _

/-! ## Arguments -/

theorem keepsBounds_of_isOfCheck {v : TypeVar} {fault : Fault} (hfault : fault.isOfCheck)
    (h : s.checkBounds v arg.descriptor known = .error fault) : keepsBounds s v arg known = .error fault := by
  rw [keepsBounds, h]
  cases fault with
  | boundViolation => cases hfault
  | _ => rfl

/-- A violated bound turns into an answer, and stands against nothing but another violated bound. -/
theorem sameReport_keepsBounds (v : TypeVar) (h : arg == arg') (hknown : known.Rel (· == ·) known') :
    SameReport (· = ·) (keepsBounds s v arg known) (keepsBounds s v arg' known') := by
  have hcheck := Store.sameReport_checkBounds (s := s) v h hknown
  cases hx : s.checkBounds v arg.descriptor known with
  | ok u =>
    cases hy : s.checkBounds v arg'.descriptor known' with
    | ok u' =>
      rw [keepsBounds, keepsBounds, hx, hy]
      exact rfl
    | error fault =>
      rw [hx, hy] at hcheck
      rw [keepsBounds_of_isOfCheck hcheck hy]
      exact .of_right hcheck _
  | error fault =>
    cases hy : s.checkBounds v arg'.descriptor known' with
    | ok u =>
      rw [hx, hy] at hcheck
      rw [keepsBounds_of_isOfCheck hcheck hx]
      exact .of_left hcheck _
    | error fault' =>
      rw [hx, hy] at hcheck
      rcases hcheck with rfl | hcheck | hcheck
      · rw [keepsBounds, keepsBounds, hx, hy]
        exact Relator.reports.refl _
      · rw [keepsBounds_of_isOfCheck hcheck hx]
        exact .of_left hcheck _
      · rw [keepsBounds_of_isOfCheck hcheck hy]
        exact .of_right hcheck _

theorem sameReport_fitsErasedBounds (v : TypeVar) (h : arg == arg') :
    SameReport (· = ·) (fitsErasedBounds s v arg) (fitsErasedBounds s v arg') := by
  have hbound : ∀ bound, Agree (· = ·) (s.isAssignable bound arg.descriptor) (s.isAssignable bound arg'.descriptor) :=
    fun bound => s.agree_isAssignable BEq.rfl h
  have hagree : Agree (· = ·) (fitsErasedBounds s v arg) (fitsErasedBounds s v arg') :=
    agree_allM (fun bound hmem => ⟨bound, hmem, hbound bound⟩) fun bound hmem => ⟨bound, hmem, hbound bound⟩
  exact .of_agree hagree (ensures_allM fun _ _ => s.failsAsCheck_isAssignable _ _)
    (ensures_allM fun _ _ => s.failsAsCheck_isAssignable _ _)

theorem argumentFits_of_not_var {param : Descriptor} (h : ¬ ∃ v, param = .var v) :
    m.argumentFits s known param arg =
      if param.hasVars then
        match param.erase? with
        | some erased => do return (← s.isAssignable erased arg.descriptor, known)
        | none => return (true, known)
      else do return (← s.isAssignable param arg.descriptor, known) := by
  cases param with
  | var v => exact absurd ⟨v, rfl⟩ h
  | _ => rfl

theorem sameReport_argumentFits (m : Signature) {param param' : Descriptor} (hknown : known.Rel (· == ·) known')
    (hparam : param == param') (harg : arg == arg') :
    SameReport (fun p q => p.1 = q.1 ∧ p.2.Rel (· == ·) q.2) (m.argumentFits s known param arg)
      (m.argumentFits s known' param' arg') := by
  have hassign : ∀ {t t' : Descriptor}, t == t' →
      SameReport (fun p q => p.1 = q.1 ∧ p.2.Rel (· == ·) q.2)
        (s.isAssignable t arg.descriptor >>= fun fits => pure (fits, known))
        (s.isAssignable t' arg'.descriptor >>= fun fits => pure (fits, known')) :=
    fun ht => (Store.sameReport_isAssignable ht harg).bind fun _ _ _ heq => ⟨heq, hknown⟩
  by_cases hvar : ∃ v, param = .var v
  · obtain ⟨v, rfl⟩ := hvar
    cases Descriptor.var_beq_iff.1 hparam
    rw [argumentFits, argumentFits]
    split
    · have hv := hknown v
      cases hx : known.get? v <;> cases hy : known'.get? v <;> rw [hx, hy] at hv
      · refine (sameReport_keepsBounds v harg hknown).bind fun keeps keeps' _ heq => ?_
        cases heq
        cases keeps with
        | false => exact ⟨rfl, hknown⟩
        | true => exact ⟨rfl, hknown.insert v harg⟩
      · cases hv
      · cases hv
      · cases hv with
        | some hsettled => exact hassign hsettled
    · exact (sameReport_fitsErasedBounds v harg).bind fun _ _ _ heq => ⟨heq, hknown⟩
  · have hvar' : ¬ ∃ v, param' = .var v := by
      rintro ⟨v, rfl⟩
      exact hvar ⟨v, Descriptor.var_beq_iff.1 (BEq.symm hparam)⟩
    rw [argumentFits_of_not_var hvar, argumentFits_of_not_var hvar', Descriptor.hasVars_eq_of_beq hparam,
      Descriptor.erase?, Descriptor.erase?, Descriptor.raw?_eq_of_beq hparam]
    split
    · cases param'.raw? with
      | none => exact ⟨rfl, hknown⟩
      | some c => exact hassign BEq.rfl
    · exact hassign hparam

theorem sameReport_checkArguments (m : Signature) (h : receiver.EqualIn s receiver') {args args' : List Key}
    (hargs : List.Forall₂ (Key.EqualIn s) args args') :
    SameReport (· = ·) (m.checkArguments s receiver args) (m.checkArguments s receiver' args') := by
  rw [checkArguments, checkArguments, hargs.length_eq]
  split
  · exact .inl rfl
  · refine (sameReport_actualizeFor m h).bind fun seen seen' _ hseen => ?_
    refine SameReport.bind (Relator.reports.foldlM (T := Substitution.Rel (· == ·)) ?_ (Substitution.rel_empty _))
      fun _ _ _ _ => rfl
    refine (Result.forall₂_zip hseen.params hargs).imp ?_
    rintro ⟨param, arg⟩ ⟨param', arg'⟩ ⟨hparam, harg⟩ known known' hknown
    refine (sameReport_argumentFits m hknown hparam harg.same).bind ?_
    rintro ⟨fits, known⟩ ⟨fits', known'⟩ _ ⟨heq, hknown⟩
    cases heq
    cases fits with
    | true => exact hknown
    | false => exact .inl (by rw [s.text_eq_of_beq hparam, harg.text_eq])

end Signature

/-! ## Equal keys -/

/-- Whatever is done with the one key and with the other, the reports are the same. By name the faults may differ, but
there is one on both sides or on neither. -/
structure Key.ReportsAlike (s : Store) (a a' : Key) : Prop where
  cast : ∀ k k' : Key, k.EqualIn s k' → ∀ (α : Type) (value : α),
    SameReport (fun b b' => b.key.EqualIn s b'.key ∧ b.value = b'.value) ((Box.mk a value).cast s k)
      ((Box.mk a' value).cast s k')
  verify : ∀ k k' : Key, k.EqualIn s k' → (Tag.ofKey a).verify k = (Tag.ofKey a').verify k'
  upcast : ∀ ancestor, SameReport (Key.EqualIn s) (a.upcast s ancestor) (a'.upcast s ancestor)
  byPosition : ∀ items items', List.Forall₂ (· == ·) items items' →
    SameReport (Key.EqualIn s) (a.actualize s (.queue items)) (a'.actualize s (.queue items'))
  byName : ∀ σ, Together (Key.EqualIn s) (a.actualize s (.map σ)) (a'.actualize s (.map σ))
  seenThrough : ∀ m : Signature, SameReport Signature.Same (m.actualizeFor s a) (m.actualizeFor s a')
  returned : ∀ m : Signature, SameReport (fun _ _ => True) (m.returnKey s a) (m.returnKey s a')
  called : ∀ (m : Signature) (args args' : List Key), List.Forall₂ (Key.EqualIn s) args args' →
    SameReport (· = ·) (m.checkArguments s a args) (m.checkArguments s a' args')

theorem Key.EqualIn.reportsAlike {s : Store} {a a' : Key} (h : a.EqualIn s a') : a.ReportsAlike s a' where
  cast _ _ hk _ value := sameReport_cast value h hk
  verify _ _ hk := verify_eq_of_equalIn h hk
  upcast := sameReport_upcast h
  byPosition _ _ := sameReport_actualize_queue h
  byName := together_actualize_map h
  seenThrough m := m.sameReport_actualizeFor h
  returned m := m.sameReport_returnKey h
  called m _ _ := m.sameReport_checkArguments h

/-- Types that are the same have one text. Equal keys of one store are displayed alike, stand at one place in text
order, are compared and sorted alike, and report alike. -/
theorem equal_keys_appear_alike (s : Store) :
    (∀ d e : Descriptor, d == e → s.text d = s.text e) ∧
      (∀ ds es : List Descriptor, List.Forall₂ (· == ·) ds es → s.listText ds = s.listText es) ∧
      (∀ a a' : Key, a.EqualIn s a' → a.text = a'.text ∧ a.debugText = a'.debugText ∧ a.ReportsAlike s a' ∧
        ∀ (hasher : Hasher) (k k' : Key), k.EqualIn s k' →
          Key.textOrder hasher a k = Key.textOrder hasher a' k' ∧
            SameReport (· = ·) (a.compareBySpecificity hasher s k) (a'.compareBySpecificity hasher s k')) ∧
      ∀ (hasher : Hasher) (keys keys' : List Key), List.Forall₂ (Key.EqualIn s) keys keys' →
        List.Forall₂ (Key.EqualIn s) (Key.sortByText hasher keys) (Key.sortByText hasher keys') ∧
          SameReport (List.Forall₂ (Key.EqualIn s)) (Key.sort hasher s keys) (Key.sort hasher s keys') := by
  refine ⟨fun d e h => s.text_eq_of_beq h, fun ds es h => ?_, fun a a' h => ⟨h.text_eq, ?_, h.reportsAlike, ?_⟩, ?_⟩
  · have htexts := s.texts_eq_of_forall₂ (h.imp fun _ _ heq => s.text_eq_of_beq heq)
    rw [Store.listText, Store.listText, htexts]
  · rw [Key.debugText, Key.debugText, h.text_eq]
  · exact fun hasher k k' hk => ⟨h.textOrder_congr hk, Key.sameReport_compareBySpecificity h hk⟩
  · exact fun hasher keys keys' h => ⟨Key.forall₂_sortByText_of_equalIn h, Key.sameReport_sort h⟩

/-- Sequences of sequences of numbers do not pass for sequences of boxes, and are named alike when they are refused,
however often their bounds are listed. -/
theorem rows_appear_alike :
    Key.numberRows.EqualIn shapes (sequencesKey [.bare ⟨1⟩, .bare ⟨2⟩, .bare ⟨1⟩]) ∧
      Key.numberRows.text = (sequencesKey [.bare ⟨1⟩, .bare ⟨2⟩, .bare ⟨1⟩]).text ∧
      (Box.mk Key.numberRows 7).cast shapes Key.boxRows = .error (.castRefused "Sequence<NumberBox<? extends Integer>>"
        "Sequence<? extends Sequence<? extends Number & Object>>") ∧
      SameReport (fun b b' => b.key.EqualIn shapes b'.key ∧ b.value = b'.value)
        ((Box.mk Key.numberRows 7).cast shapes Key.boxRows)
        ((Box.mk (sequencesKey [.bare ⟨1⟩, .bare ⟨2⟩, .bare ⟨1⟩]) 7).cast shapes Key.boxRows) := by
  have hrows : Key.numberRows.EqualIn shapes (sequencesKey [.bare ⟨1⟩, .bare ⟨2⟩, .bare ⟨1⟩]) :=
    .of_template (by rfl) (by rfl) (by rfl)
  have hboxes : Key.boxRows.EqualIn shapes Key.boxRows := .of_template (by rfl) (by rfl) (by rfl)
  obtain ⟨htext, _, hreports, _⟩ := (equal_keys_appear_alike shapes).2.2.1 _ _ hrows
  exact ⟨hrows, htext, by rfl, hreports.cast _ _ hboxes Nat 7⟩

/-! ## Where the order of bounds shows -/

/-- `Texts` are sequences, `Table` has two parameters that are to be numbers, `Stray` is declared below a class that is
not there, and the parameter of `Knot` is bounded by itself. -/
def hazards : Store := .built
  [.register ⟨.ordinary, "Object", [], [], none⟩,
    .register ⟨.ordinary, "Number", [], [.bare ⟨1⟩], none⟩,
    .register ⟨.ordinary, "Text", [], [.bare ⟨1⟩], none⟩,
    .register ⟨.interface, "Sequence", [⟨"T", []⟩], [.bare ⟨1⟩], none⟩,
    .register ⟨.ordinary, "Texts", [], [.generic ⟨4⟩ [.bare ⟨3⟩]], none⟩,
    .register ⟨.ordinary, "Table", [⟨"K", [.bare ⟨2⟩]⟩, ⟨"V", [.bare ⟨2⟩]⟩], [.bare ⟨1⟩], none⟩,
    .register ⟨.ordinary, "Stray", [], [.bare ⟨9⟩], none⟩,
    .register ⟨.ordinary, "Knot", [⟨"T", [.var ⟨.ofClass ⟨8⟩, "T"⟩]⟩], [.bare ⟨1⟩], none⟩,
    .setRoot ⟨1⟩]

/-- `Sequence<? extends ..>` with these bounds. -/
def boundedKey (upper : List Descriptor) : Key :=
  ⟨.generic ⟨4⟩ [.wildcard [] upper], ⟨4⟩, hazards.text (.generic ⟨4⟩ [.wildcard [] upper]),
    (Descriptor.wildcard [] upper).hasVars⟩

/-- Keys with two bounds in one order and in the other, which are equal, and what `f` comes to for each. -/
def Store.TellsApart {α : Type} (s : Store) (f : Key → Result α) (bound bound' : Descriptor) (x y : Result α) : Prop :=
  (boundedKey [bound, bound']).EqualIn s (boundedKey [bound', bound]) ∧
    f (boundedKey [bound, bound']) = x ∧ f (boundedKey [bound', bound]) = y

/-- The order of bounds shows in which variable is found unresolved or outside its bounds, and in whether a bound that
cannot be dealt with comes after one that settles the matter. -/
theorem order_of_bounds_shows :
    hazards.TellsApart (·.actualize hazards (.map .empty)) (.var ⟨.ofClass ⟨6⟩, "K"⟩) (.var ⟨.ofClass ⟨6⟩, "V"⟩)
        (.error (.invalidDescriptor "Sequence<? extends K & V>" (.unresolved "K")))
        (.error (.invalidDescriptor "Sequence<? extends K & V>" (.unresolved "V"))) ∧
      hazards.TellsApart
        (·.actualize hazards (.map (Substitution.empty.insertAll
          [(⟨.ofClass ⟨6⟩, "K"⟩, .bare ⟨3⟩), (⟨.ofClass ⟨6⟩, "V"⟩, .bare ⟨3⟩)])))
        (.var ⟨.ofClass ⟨6⟩, "K"⟩) (.var ⟨.ofClass ⟨6⟩, "V"⟩)
        (.error (.boundViolation "K" "Number" "Text")) (.error (.boundViolation "V" "Number" "Text")) ∧
      hazards.TellsApart (fun k => (boundedKey [.generic ⟨4⟩ [.bare ⟨3⟩]]).accepts hazards k) (.bare ⟨5⟩) (.bare ⟨7⟩)
        (.ok true) (.error (.unknownClass ⟨9⟩)) ∧
      hazards.TellsApart (fun k => (boundedKey [.generic ⟨4⟩ [.bare ⟨3⟩]]).accepts hazards k) (.bare ⟨5⟩)
        (.var ⟨.ofClass ⟨8⟩, "T"⟩) (.ok true) (.error (.depthExceeded .assignabilityCheck 128)) :=
  ⟨⟨.of_template (by rfl) (by rfl) (by rfl), by rfl, by rfl⟩, ⟨.of_template (by rfl) (by rfl) (by rfl), by rfl, by rfl⟩,
    ⟨.of_template (by rfl) (by rfl) (by rfl), by rfl, by rfl⟩,
    ⟨.of_template (by rfl) (by rfl) (by rfl), by rfl, by decide +kernel⟩⟩

end Generics
