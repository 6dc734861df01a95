import Generics.Proofs.Keys
import Generics.Proofs.Mismatch
import Generics.Proofs.Regular

/-! # A key seen as a class above it

The walk up from a type without variables ends at one, whatever owners bind anew, so that a key can be made of what
it finds. The new key does not refuse the old one: the check walks up to the same view and compares it with
itself, and a question about a type and itself has no other answer than yes. -/

namespace Generics
set_option autoImplicit false

open Result

namespace Store

variable {s : Store} {q : Questions Result}

/-! ## Types and themselves -/

/-- Types pass for themselves and wildcards lie within themselves, also if their upper bounds come from a
declaration. -/
structure Reflexive (q : Questions Result) : Prop where
  assignable : ∀ t, Decides True (q.assignable t t)
  contains : ∀ lower upper upper', (upper = [] ∨ upper' = upper) →
    Decides True (q.contains ⟨lower, upper⟩ (.wildcard lower upper'))

theorem decides_wildcardContains_self {assignable : Descriptor → Descriptor → Result Bool}
    (hq : ∀ t, Decides True (assignable t t)) (lower : List Descriptor) {upper upper' : List Descriptor}
    (hupper : upper = [] ∨ upper' = upper) :
    Decides True (s.wildcardContains assignable ⟨lower, upper⟩ (.wildcard lower upper')) := by
  have hup : Decides (∀ u ∈ upper, True)
      (upper.allM fun u => (s.impliedUpper upper').anyM fun u' => assignable u u') := by
    refine decides_allM fun u hu => decides_anyM_of_mem ?_ (hq u)
    rcases hupper with rfl | rfl
    · simp at hu
    · rw [impliedUpper, if_neg (by simpa using List.ne_nil_of_mem hu)]
      exact hu
  have hlow : Decides (∀ l ∈ lower, True) (lower.allM fun l => lower.anyM fun l' => assignable l' l) :=
    decides_allM fun l hl => decides_anyM_of_mem hl (hq l)
  exact (hup.and fun _ => hlow).iff (by simp)

theorem decides_takes_self (q : Questions Result) (t : Descriptor) : Decides True (s.takes q t t) := by
  unfold takes
  rw [if_pos BEq.rfl]
  exact decides_ok (by simp)

theorem reflexive_questions (s : Store) (p : Profile) (levels : Nat) : Reflexive (s.questions p id levels) := by
  induction levels with
  | zero =>
    constructor
    · intro t
      rw [assignable_questions_zero]
      exact decides_error _
    · intro lower upper upper' _
      rw [contains_questions_zero]
      exact decides_error _
  | succ levels ih =>
    constructor
    · intro t
      rw [assignable_questions_succ]
      exact decides_takes_self _ t
    · intro lower upper upper' hupper
      rw [contains_questions_succ]
      exact decides_wildcardContains_self ih.assignable lower hupper

theorem Reflexive.argumentFits (hq : Reflexive q) (c : ClassId) (index : Nat) (a : Descriptor) :
    Decides True (s.argumentFits q c index a a) := by
  cases a with
  | wildcard lower upper =>
    simp only [Store.argumentFits, ofExcept_eq]
    refine Decides.bind fun a' ha' => ?_
    cases upper with
    | nil =>
      rw [withDeclaredUpper, bind_eq_ok_iff] at ha'
      obtain ⟨decl, _, heq⟩ := ha'
      cases heq
      exact hq.contains _ _ _ (.inl rfl)
    | cons u upper =>
      cases ha'
      exact hq.contains _ _ _ (.inr rfl)
  | bare c' => exact decides_ok (by simp)
  | applied owner c' args => exact decides_ok (by simp)
  | var v => exact decides_ok (by simp)

theorem Reflexive.firstMisfit? (hq : Reflexive q) (c : ClassId) (args : List Descriptor) :
    Decides True (s.firstMisfit? q c args args >>= fun found => .ok found.isNone) := by
  have hall : Decides (∀ x ∈ (args.zip args).zipIdx, ¬ ¬ True)
      (s.firstMisfit? q c args args >>= fun found => .ok found.isNone) := by
    refine decides_findM?_isNone fun ⟨⟨r, a⟩, i⟩ hmem => ?_
    obtain ⟨hr, ha⟩ := List.getElem?_zip_eq_some.1 (List.mem_zipIdx_iff_getElem?.1 hmem)
    dsimp only at hr ha
    rw [hr] at ha
    cases ha
    exact (hq.argumentFits c i r).not
  exact hall.iff (by simp)

theorem Reflexive.ownersFit (hq : Reflexive q) (owner : Option Descriptor) :
    Decides True (Store.ownersFit q owner owner) := by
  cases owner with
  | none => exact decides_ok (by simp)
  | some o => exact hq.assignable o

/-! ## Types and what they are seen as -/

theorem viewAs_of_asSupertype {d : Descriptor} {owner : Option Descriptor} {c : ClassId} {args : List Descriptor}
    (h : s.asSupertype d c = .ok (some (.applied owner c args))) : s.viewAs d c = .ok (some (owner, args)) := by
  rw [viewAs, h]
  rfl

theorem NominalSupertypes.decides_isSubclass (hn : s.NominalSupertypes) {d e : Descriptor} {b c : ClassId}
    (hb : d.raw? = some b) (h : s.asSupertype d c = .ok (some e)) : Decides True (s.isSubclass b c) := by
  obtain ⟨he, hreach⟩ := reaches_of_asSupertype h
  obtain ⟨p, hp, hup⟩ := hreach.above hn hb
  rw [he] at hp
  cases hp
  exact fun answer hanswer => (isSubclass_eq_ok hanswer).trans ⟨fun _ => trivial, fun _ => hup⟩

theorem NominalSupertypes.decides_applicationTakes (hn : s.NominalSupertypes) (hq : Reflexive q)
    {owner : Option Descriptor} {c : ClassId} {args : List Descriptor} {d : Descriptor} {b : ClassId}
    (hb : d.raw? = some b) (h : s.asSupertype d c = .ok (some (.applied owner c args))) :
    Decides True (s.applicationTakes q owner c args d) := by
  unfold applicationTakes
  simp only [ofExcept_eq, rawOf_eq_ok_iff.2 hb, ok_bind, viewAs_of_asSupertype h]
  refine Decides.bind fun sub hsub => ?_
  rw [(hn.decides_isSubclass hb h sub hsub).2 trivial]
  -- the view is the application itself, so each part of it is compared with itself
  have hboth := ((hq.ownersFit owner).and fun _ => hq.firstMisfit? (s := s) c args).iff (Q := True) (by simp)
  rw [if_pos rfl, if_neg (fun hne => hne rfl)]
  exact hboth

theorem NominalSupertypes.decides_takes (hn : s.NominalSupertypes) (hq : Reflexive q) {d e : Descriptor}
    {b c : ClassId} (hb : d.raw? = some b) (h : s.asSupertype d c = .ok (some e)) :
    Decides True (s.takes q e d) := by
  obtain ⟨he, _⟩ := reaches_of_asSupertype h
  unfold takes
  split
  · exact decides_ok (by simp)
  split
  · cases he
  · cases hb
  · cases he
  · cases hb
  · cases he
    simp only [ofExcept_eq, rawOf_eq_ok_iff.2 hb, ok_bind]
    exact hn.decides_isSubclass hb h
  · cases he
    exact hn.decides_applicationTakes hq hb h

/-- What a type is seen as does not refuse it. -/
theorem NominalSupertypes.decides_isAssignable (hn : s.NominalSupertypes) {d e : Descriptor} {b c : ClassId}
    (hb : d.raw? = some b) (h : s.asSupertype d c = .ok (some e)) : Decides True (s.isAssignable e d) := by
  change Decides True ((s.questions .assignability id Profile.assignability.maxDepth).assignable e d)
  cases Profile.assignability.maxDepth with
  | zero =>
    rw [assignable_questions_zero]
    exact decides_error _
  | succ levels =>
    rw [assignable_questions_succ]
    exact hn.decides_takes (s.reflexive_questions _ levels) hb h

end Store

/-! ## Upcasts -/

namespace Key

/-- What an upcast goes through: the walk up, and the making of a key unless the view is the key's own type. -/
theorem upcast_eq {s : Store} {k : Key} {ancestor : ClassId} (ha : s.contains ancestor) :
    k.upcast s ancestor = s.asSupertype k.descriptor ancestor >>= fun found =>
      match found with
      | none => .error (.notASupertype k.text (s.className ancestor))
      | some d => if d == k.descriptor then .ok k else freeze s d k.isPartial := by
  obtain ⟨decl, hdecl⟩ := Option.isSome_iff_exists.1 ha
  rw [upcast, Store.require_eq_ok_iff.2 hdecl, ok_bind]
  rfl

/-- A key of the class above that does not refuse the first key; or the class is not above it, as far as a search
can tell; or the walk goes too deep. -/
theorem upcast_sound (s : Store) (hs : s.ProperSupertypes) (ho : s.OwnSupertypes) (k : Key) (hk : k.MadeIn s)
    (hresolved : k.isPartial = false) (ancestor : ClassId) (ha : s.contains ancestor) :
    (∃ above, k.upcast s ancestor = .ok above ∧ above.raw = ancestor ∧
      above.descriptor.raw? = some ancestor ∧ above.isPartial = false ∧ s.checkArity above.descriptor = .ok () ∧
      above.accepts s k ≠ .ok false) ∨
    (∃ below above, k.upcast s ancestor = .error (.notASupertype below above) ∧
      s.isSubclass k.raw ancestor ≠ .ok true) ∨
    ∃ activity limit, k.upcast s ancestor = .error (.depthExceeded activity limit) := by
  have hraw := hk.raw?_eq
  have hfaults := hs.ensures_asSupertype hk.wellFormed (by rw [hraw]; rfl) ancestor
  rw [upcast_eq ha]
  cases hfound : s.asSupertype k.descriptor ancestor with
  | error fault =>
    rw [hfound] at hfaults
    cases fault with
    | depthExceeded activity limit => exact .inr (.inr ⟨activity, limit, rfl⟩)
    | _ => cases hfaults
  | ok found =>
    cases found with
    | none =>
      refine .inr (.inl ⟨_, _, rfl, fun hsub => ?_⟩)
      exact Store.not_above_of_asSupertype hraw hfound ((Store.isSubclass_eq_ok hsub).1 rfl)
    | some d =>
      obtain ⟨hd, hreach⟩ := Store.reaches_of_asSupertype hfound
      rw [hfound] at hfaults
      have hclosed : d.vars = [] := ho.vars_reaches (hk.closed hresolved) hreach
      left
      rw [ok_bind]
      dsimp only
      split
      · rename_i hsame
        have hrawk := Descriptor.raw?_eq_of_beq hsame
        rw [hd, hraw] at hrawk
        refine ⟨k, rfl, (Option.some.inj hrawk).symm, hraw.trans hrawk.symm, hresolved, ?_, ?_⟩
        · exact Store.checkArity_eq_ok_iff.2 hk.wellFormed
        · rw [accepts, if_pos BEq.rfl]
          exact fun h => by cases h
      · rename_i hother
        rw [hresolved]
        refine ⟨_, freeze_eq_ok_iff.2 ⟨hfaults d rfl, fun _ => hclosed, ancestor, hd, rfl⟩, rfl, hd, rfl,
          Store.checkArity_eq_ok_iff.2 (hfaults d rfl), fun hno => ?_⟩
        rw [accepts, beq_eq, if_neg hother] at hno
        cases (hs.nominal.decides_isAssignable hraw hfound false hno).2 trivial

end Key

theorem Store.knot_proper : Store.knot.ProperSupertypes := by
  refine ⟨Store.nominal_of_all (by decide), fun c decl h supertype hmem => ?_⟩
  have hall : ∀ decl ∈ Store.knot.decls, ∀ supertype ∈ decl.supertypes,
      (Store.knot.checkArity supertype).isOk := by decide
  exact Store.eq_ok_of_isOk (hall decl (Store.mem_decls_of_get? h) supertype hmem)

theorem Store.knot_own : Store.knot.OwnSupertypes := Store.ownSupertypes_of_all (by decide)

/-- The key of one of the two generic classes, for any argument below `Top`. -/
def knotKey (c : ClassId) : Key :=
  ⟨.generic c [.extending (.bare ⟨1⟩)], c, Store.knot.text (.generic c [.extending (.bare ⟨1⟩)]), false⟩

/-- `Knot<? extends Top>` is seen as `Leaf<? extends Top>` past the cycle, and not the other way round. -/
theorem knot_upcast :
    (knotKey ⟨2⟩).upcast Store.knot ⟨3⟩ = .ok (knotKey ⟨3⟩) ∧
      (knotKey ⟨3⟩).accepts Store.knot (knotKey ⟨2⟩) ≠ .ok false ∧
      (∃ below above, (knotKey ⟨3⟩).upcast Store.knot ⟨2⟩ = .error (.notASupertype below above)) ∧
      Store.knot.isSubclass ⟨3⟩ ⟨2⟩ ≠ .ok true := by
  have hup : (knotKey ⟨2⟩).upcast Store.knot ⟨3⟩ = .ok (knotKey ⟨3⟩) := by rfl
  have hdown : (knotKey ⟨3⟩).upcast Store.knot ⟨2⟩ = .error (.notASupertype (knotKey ⟨3⟩).text "Knot") := by rfl
  have hknot : (knotKey ⟨2⟩).MadeIn Store.knot := ⟨(knotKey ⟨2⟩).descriptor, false, rfl⟩
  have hleaf : (knotKey ⟨3⟩).MadeIn Store.knot := ⟨(knotKey ⟨3⟩).descriptor, false, rfl⟩
  refine ⟨hup, ?_, ⟨_, _, hdown⟩, ?_⟩
  · rcases Key.upcast_sound Store.knot Store.knot_proper Store.knot_own (knotKey ⟨2⟩) hknot rfl ⟨3⟩ rfl with
      ⟨above, hok, _, _, _, _, haccepts⟩ | ⟨_, _, herror, _⟩ | ⟨_, _, herror⟩
    · cases hup.symm.trans hok
      exact haccepts
    · cases hup.symm.trans herror
    · cases hup.symm.trans herror
  · rcases Key.upcast_sound Store.knot Store.knot_proper Store.knot_own (knotKey ⟨3⟩) hleaf rfl ⟨2⟩ rfl with
      ⟨_, hok, _⟩ | ⟨_, _, _, hsub⟩ | ⟨_, _, herror⟩
    · cases hdown.symm.trans hok
    · exact hsub
    · cases hdown.symm.trans herror

end Generics
