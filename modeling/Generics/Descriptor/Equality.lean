import Generics.Descriptor.Basic

/-! # When two descriptors are the same

Arguments are compared in order, the bounds of a wildcard as sets: neither their order nor a repeated bound
counts, at any depth. `same_wildcard` says it for wildcards: each bound of either is the same as some bound of
the other. -/

namespace Generics.Descriptor
set_option autoImplicit false

mutual

/-- Whether two descriptors are the same, wildcard bounds being sets. -/
def same : Descriptor → Descriptor → Bool
  | .bare c, .bare c' => c == c'
  | .applied owner c args, .applied owner' c' args' =>
    c == c' && sameOwner owner owner' && sameList args args'
  | .var v, .var v' => v == v'
  | .wildcard lower upper, .wildcard lower' upper' =>
    allAmong lower lower' && lower'.all (fun e => anySame lower e) &&
      (allAmong upper upper' && upper'.all fun e => anySame upper e)
  | _, _ => false
termination_by structural d => d

def sameOwner : Option Descriptor → Option Descriptor → Bool
  | none, none => true
  | some d, some d' => d.same d'
  | _, _ => false
termination_by structural owner => owner

def sameList : List Descriptor → List Descriptor → Bool
  | [], [] => true
  | d :: ds, d' :: ds' => d.same d' && sameList ds ds'
  | _, _ => false
termination_by structural ds => ds

def allAmong : List Descriptor → List Descriptor → Bool
  | [], _ => true
  | d :: ds, es => es.any (fun e => d.same e) && allAmong ds es
termination_by structural ds => ds

def anySame : List Descriptor → Descriptor → Bool
  | [], _ => false
  | d :: ds, e => d.same e || anySame ds e
termination_by structural ds => ds

end

theorem allAmong_eq (ds es : List Descriptor) : allAmong ds es = ds.all fun d => es.any d.same := by
  induction ds with
  | nil => rfl
  | cons d ds ih => simp [allAmong, ih]

theorem anySame_eq (ds : List Descriptor) (e : Descriptor) : anySame ds e = ds.any (·.same e) := by
  induction ds with
  | nil => rfl
  | cons d ds ih => simp [anySame, ih]

theorem same_wildcard (lower upper lower' upper' : List Descriptor) :
    same (.wildcard lower upper) (.wildcard lower' upper') =
      ((lower.all (fun d => lower'.any d.same) && lower'.all fun e => lower.any (·.same e)) &&
        (upper.all (fun d => upper'.any d.same) && upper'.all fun e => upper.any (·.same e))) := by
  simp only [same, allAmong_eq, anySame_eq]

theorem length_eq_of_sameList {ds es : List Descriptor} (h : sameList ds es = true) :
    ds.length = es.length := by
  induction ds generalizing es with
  | nil => cases es <;> simp_all [sameList]
  | cons d ds ih =>
    cases es with
    | nil => simp [sameList] at h
    | cons e es =>
      simp only [sameList, Bool.and_eq_true] at h
      simp [ih h.2]

theorem sameList_refl {ds : List Descriptor} (h : ∀ d ∈ ds, d.same d = true) : sameList ds ds = true := by
  induction ds with
  | nil => rfl
  | cons d ds ih => simp [sameList, h d (by simp), ih fun e he => h e (by simp [he])]

theorem same_refl (d : Descriptor) : d.same d = true := by
  induction d using Descriptor.induct with
  | bare c => simp [same]
  | applied owner c args ho ha =>
    cases owner with
    | none => simp [same, sameOwner, sameList_refl ha]
    | some o => simp [same, sameOwner, ho o rfl, sameList_refl ha]
  | var v => simp [same]
  | wildcard lower upper hl hu =>
    simp only [same_wildcard, Bool.and_eq_true, List.all_eq_true, List.any_eq_true]
    exact ⟨⟨fun d hd => ⟨d, hd, hl d hd⟩, fun d hd => ⟨d, hd, hl d hd⟩⟩,
      fun d hd => ⟨d, hd, hu d hd⟩, fun d hd => ⟨d, hd, hu d hd⟩⟩

end Generics.Descriptor
