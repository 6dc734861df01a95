import Generics.Descriptor.Equality

/-! # Comparing descriptors

This is the `==` of descriptors. It says whether they are the same, as `beq_eq_same` states, and sees to it
that large descriptors which share parts are compared without unfolding them.

* One and the same object is not looked into.
* Lists of different lengths are not gone through.
* Of two sets of bounds no pair is compared twice, and none before it is needed.

The functions return what they compute together with the proof that it is right, since the shortcut for one
and the same object has to be justified on every level. -/

namespace Generics.Descriptor
set_option autoImplicit false

/-! ## Two sets of bounds -/

section Sets

variable {α β γ : Type}

/-- Whether each of `as` has a partner among `bs` and the other way round. The second half asks what the first has left
open: an element is no partner of those before its first one. -/
def matchUp (ask askBack : α → β → Bool) (as : List α) (bs : List β) : Bool :=
  match as.mapM fun a => bs.findIdx? (ask a) with
  | none => false
  | some firsts => bs.zipIdx.all fun (b, k) => (as.zip firsts).any fun (a, first) =>
      !(k < first) && (k == first || askBack a b)

theorem matchUp_map_left (ask askBack : α → β → Bool) (g : γ → α) (cs : List γ) (bs : List β) :
    matchUp ask askBack (cs.map g) bs = matchUp (fun c => ask (g c)) (fun c => askBack (g c)) cs bs := by
  simp [matchUp, List.mapM_map, List.zip_map_left, Function.comp_def]

theorem matchUp_map_right (ask askBack : α → β → Bool) (g : γ → β) (as : List α) (cs : List γ) :
    matchUp ask askBack as (cs.map g) =
      matchUp (fun a c => ask a (g c)) (fun a c => askBack a (g c)) as cs := by
  simp [matchUp, List.findIdx?_map, List.zipIdx_map, Function.comp_def]

theorem known_eq {f : β → Bool} {bs : List β} {first k : Nat} {b : β}
    (h : bs.findIdx? f = some first) (hb : bs[k]? = some b) :
    (!(decide (k < first)) && (k == first || f b)) = f b := by
  obtain ⟨hlt, htrue, hfalse⟩ := List.findIdx?_eq_some_iff_getElem.1 h
  obtain ⟨hk, rfl⟩ := List.getElem?_eq_some_iff.1 hb
  rcases Nat.lt_trichotomy k first with hl | rfl | hg
  · simp [hl, hfalse k hl]
  · simp [htrue]
  · have hn : ¬ k < first := by omega
    have he : (k == first) = false := by simp; omega
    simp [hn, he]

theorem any_zip_firsts {f : α → β → Bool} {as : List α} {bs : List β} {firsts : List Nat} {k : Nat} {b : β}
    (h : as.mapM (fun a => bs.findIdx? (f a)) = some firsts) (hb : bs[k]? = some b) :
    ((as.zip firsts).any fun (a, first) => !(decide (k < first)) && (k == first || f a b)) =
      as.any (f · b) := by
  induction as generalizing firsts with
  | nil => simp
  | cons a as ih =>
    simp only [List.mapM_cons, Option.bind_eq_bind, Option.bind_eq_some_iff, Option.pure_def,
      Option.some.injEq] at h
    obtain ⟨first, ha, rest, hs, rfl⟩ := h
    simp only [List.zip_cons_cons, List.any_cons, ih hs, known_eq ha hb]

/-- Matching up says whether the two lists are the same as sets. -/
theorem matchUp_eq (f : α → β → Bool) (as : List α) (bs : List β) :
    matchUp f f as bs = (as.all (fun a => bs.any (f a)) && bs.all fun b => as.any (f · b)) := by
  unfold matchUp
  cases h : as.mapM fun a => bs.findIdx? (f a) with
  | none =>
    have hn : as.all (fun a => bs.any (f a)) = false := by
      induction as with
      | nil => simp at h
      | cons a as ih =>
        cases ha : bs.findIdx? (f a) with
        | none =>
          have := List.findIdx?_eq_none_iff.1 ha
          simp_all
        | some first =>
          cases hs : as.mapM fun a => bs.findIdx? (f a) with
          | none => simp [ih hs]
          | some rest => simp [List.mapM_cons, ha, hs] at h
    simp [hn]
  | some firsts =>
    have hy : as.all (fun a => bs.any (f a)) = true := by
      induction as generalizing firsts with
      | nil => rfl
      | cons a as ih =>
        simp only [List.mapM_cons, Option.bind_eq_bind, Option.bind_eq_some_iff, Option.pure_def,
          Option.some.injEq] at h
        obtain ⟨first, ha, rest, hs, rfl⟩ := h
        obtain ⟨hlt, htrue, _⟩ := List.findIdx?_eq_some_iff_getElem.1 ha
        simp only [List.all_cons, ih rest hs, Bool.and_true, List.any_eq_true]
        exact ⟨_, List.getElem_mem hlt, htrue⟩
    simp only [hy, Bool.true_and]
    rw [Bool.eq_iff_iff, List.all_eq_true, List.all_eq_true]
    constructor
    · intro hall b hb
      obtain ⟨k, hk⟩ := List.getElem?_of_mem hb
      have := hall (b, k) (List.mem_zipIdx_iff_getElem?.2 hk)
      rwa [any_zip_firsts h hk] at this
    · intro hall ⟨b, k⟩ hb
      have hk := List.mem_zipIdx_iff_getElem?.1 hb
      rw [any_zip_firsts h hk]
      exact hall b (List.mem_of_getElem? hk)

end Sets

/-- Whether two lists of bounds are the same as sets, the first being given by how its bounds compare with
others. If `turned`, the second list is gone through first. -/
def sameSets (turned : Bool) (bounds : List (Bool → Descriptor → Bool)) (es : List Descriptor) : Bool :=
  if turned then matchUp (fun e ask => ask false e) (fun e ask => ask true e) es bounds
  else matchUp (fun ask e => ask true e) (fun ask e => ask false e) bounds es

theorem sameSets_map (turned : Bool) (ds es : List Descriptor) :
    sameSets turned (ds.map fun d _ e => d.same e) es =
      (ds.all (fun d => es.any d.same) && es.all fun e => ds.any (·.same e)) := by
  cases turned
  · simp only [sameSets, Bool.false_eq_true, if_false, matchUp_map_left]
    exact matchUp_eq same ds es
  · simp only [sameSets, if_true, matchUp_map_right]
    rw [matchUp_eq fun e d => same d e, Bool.and_comm]

/-! ## Two descriptors -/

/-- What a comparison of two descriptors gives. -/
abbrev Verdict (d e : Descriptor) : Type := { r : Bool // r = d.same e }

/-- Compares only if the two are not one object. -/
@[inline] def unlessShared (d e : Descriptor) (verdict : Unit → Verdict d e) : Verdict d e :=
  ⟨withPtrEq d e (fun _ => (verdict ()).val) fun h => by rw [(verdict ()).property, h, same_refl],
    (verdict ()).property⟩

mutual

/-- Compares two descriptors. On every level of bounds the sides change places, and `turned` says that they
have. -/
def verdict (turned : Bool) (d e : Descriptor) : Verdict d e :=
  unlessShared d e fun _ =>
    match d, e with
    | .applied owner c args, .applied owner' c' args' =>
      ⟨c == c' && (args.length == args'.length &&
          ((ownerVerdict turned owner owner').val && (listVerdict turned args args').val)), by
        rw [(ownerVerdict turned owner owner').property, (listVerdict turned args args').property, same]
        cases h : sameList args args' with
        | true => simp [length_eq_of_sameList h]
        | false => simp⟩
    | .wildcard lower upper, .wildcard lower' upper' =>
      ⟨sameSets turned (askers lower).val lower' && sameSets turned (askers upper).val upper', by
        rw [(askers lower).property, (askers upper).property, sameSets_map, sameSets_map, same_wildcard]⟩
    | d, e => ⟨d.same e, rfl⟩
termination_by structural d

def ownerVerdict (turned : Bool) (owner owner' : Option Descriptor) :
    { r : Bool // r = sameOwner owner owner' } :=
  match owner, owner' with
  | some d, some d' => ⟨(verdict turned d d').val, (verdict turned d d').property⟩
  | none, none => ⟨true, rfl⟩
  | none, some _ => ⟨false, rfl⟩
  | some _, none => ⟨false, rfl⟩
termination_by structural owner

def listVerdict (turned : Bool) (ds es : List Descriptor) : { r : Bool // r = sameList ds es } :=
  match ds, es with
  | d :: ds, e :: es =>
    ⟨(verdict turned d e).val && (listVerdict turned ds es).val, by
      rw [(verdict turned d e).property, (listVerdict turned ds es).property, sameList]⟩
  | [], [] => ⟨true, rfl⟩
  | [], _ :: _ => ⟨false, rfl⟩
  | _ :: _, [] => ⟨false, rfl⟩
termination_by structural ds

/-- How each of a list compares with other descriptors. -/
def askers (ds : List Descriptor) :
    { bounds : List (Bool → Descriptor → Bool) // bounds = ds.map fun d _ e => d.same e } :=
  match ds with
  | [] => ⟨[], rfl⟩
  | d :: ds => ⟨(fun turned e => (verdict turned d e).val) :: (askers ds).val, by
      rw [(askers ds).property, List.map_cons]
      congr
      funext turned e
      exact (verdict turned d e).property⟩
termination_by structural ds

end

instance : BEq Descriptor := ⟨fun d e => (verdict false d e).val⟩

theorem beq_eq_same (d e : Descriptor) : (d == e) = d.same e := (verdict false d e).property

end Generics.Descriptor
