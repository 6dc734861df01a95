import Generics.Key.Capture
import Generics.Key.Tag
import Generics.Proofs.Casts
import Generics.Proofs.Lifetimes
import Generics.Proofs.TextOrder
import Generics.Signature

/-! # The keys that a program can hold

A key is made of a descriptor if nothing is wrong anywhere in it: `Descriptor.HasPart` says where to look, at the
descriptor itself and in its owner, its arguments and its bounds, and `Store.Admissible` what has to be found there.
However a program comes by a key (`Key.Obtained`), all that the key carries is right (`Key.Faithful`), and a key that
carries what is right can be come by. -/

namespace Generics
set_option autoImplicit false

open Result

/-! ## Parts -/

namespace Descriptor

/-- The second descriptor stands somewhere in the first, or is the first. -/
inductive HasPart : Descriptor → Descriptor → Prop
  | self (d : Descriptor) : HasPart d d
  | owner {o part : Descriptor} {c : ClassId} {args : List Descriptor} (h : HasPart o part) :
      HasPart (.applied (some o) c args) part
  | arg {owner : Option Descriptor} {a part : Descriptor} {c : ClassId} {args : List Descriptor} (ha : a ∈ args)
      (h : HasPart a part) : HasPart (.applied owner c args) part
  | lower {l part : Descriptor} {lower upper : List Descriptor} (hl : l ∈ lower) (h : HasPart l part) :
      HasPart (.wildcard lower upper) part
  | upper {u part : Descriptor} {lower upper : List Descriptor} (hu : u ∈ upper) (h : HasPart u part) :
      HasPart (.wildcard lower upper) part

theorem mem_vars_of_hasPart {d part : Descriptor} {v : TypeVar} (h : d.HasPart part) (hv : v ∈ part.vars) :
    v ∈ d.vars := by
  induction h with
  | self d => exact hv
  | owner _ ih => exact mem_vars_owner (ih hv)
  | arg ha _ ih => exact mem_vars_arg ha (ih hv)
  | lower hl _ ih => exact mem_vars_lower hl (ih hv)
  | upper hu _ ih => exact mem_vars_upper hu (ih hv)

theorem hasPart_of_mem_vars {d : Descriptor} {v : TypeVar} (hv : v ∈ d.vars) : d.HasPart (.var v) := by
  induction d using Descriptor.induct with
  | bare c => cases hv
  | applied owner c args ho ha =>
    rw [vars, ownerVars_eq, listVars_eq, List.mem_append, List.mem_flatMap] at hv
    rcases hv with hv | ⟨a, hmem, hv⟩
    · cases owner with
      | none => cases hv
      | some o => exact .owner (ho o rfl hv)
    · exact .arg hmem (ha a hmem hv)
  | var w =>
    rw [vars, List.mem_singleton] at hv
    subst hv
    exact .self _
  | wildcard lower upper hl hu =>
    rw [vars, listVars_eq, listVars_eq, List.mem_append, List.mem_flatMap, List.mem_flatMap] at hv
    rcases hv with ⟨l, hmem, hv⟩ | ⟨u, hmem, hv⟩
    · exact .lower hmem (hl l hmem hv)
    · exact .upper hmem (hu u hmem hv)

theorem hasPart_var_iff {d : Descriptor} {v : TypeVar} : d.HasPart (.var v) ↔ v ∈ d.vars :=
  ⟨fun h => mem_vars_of_hasPart h (List.mem_singleton.2 rfl), hasPart_of_mem_vars⟩

theorem vars_eq_nil_iff_forall {d : Descriptor} : d.vars = [] ↔ ∀ v, ¬ d.HasPart (.var v) := by
  rw [List.eq_nil_iff_forall_not_mem]
  exact forall_congr' fun v => not_congr hasPart_var_iff.symm

end Descriptor

/-! ## Admissible descriptors -/

namespace Store

/-- A descriptor with a class, in which every class is declared and every class with arguments has as many as it has
parameters. -/
structure Admissible (s : Store) (d : Descriptor) : Prop where
  nominal : ∃ c, d.raw? = some c
  declared : ∀ part c, d.HasPart part → part.raw? = some c → s.contains c
  saturated : ∀ owner c args decl, d.HasPart (.applied owner c args) → s.get? c = some decl →
    args.length = decl.arity

theorem WellFormed.part {s : Store} {d part : Descriptor} (hpart : d.HasPart part) (h : s.WellFormed d) :
    s.WellFormed part := by
  induction hpart with
  | self d => exact h
  | owner _ ih =>
    cases h with
    | applied _ _ ho _ => exact ih (ho _ rfl)
  | arg hmem _ ih =>
    cases h with
    | applied _ _ _ ha => exact ih (ha _ hmem)
  | lower hmem _ ih =>
    cases h with
    | wildcard hl _ => exact ih (hl _ hmem)
  | upper hmem _ ih =>
    cases h with
    | wildcard _ hu => exact ih (hu _ hmem)

/-- What is asked of one part alone. -/
def SoundPart (s : Store) (part : Descriptor) : Prop :=
  (∀ c, part.raw? = some c → s.contains c) ∧
    ∀ owner c args decl, part = .applied owner c args → s.get? c = some decl → args.length = decl.arity

theorem wellFormed_of_parts {s : Store} {d : Descriptor} (h : ∀ part, d.HasPart part → s.SoundPart part) :
    s.WellFormed d := by
  -- What is said of all parts of `d` is said of all parts of a part of `d`, which is what the induction asks for.
  induction d using Descriptor.induct with
  | bare c =>
    obtain ⟨decl, hdecl⟩ := Option.isSome_iff_exists.1 ((h _ (.self _)).1 c rfl)
    exact .bare hdecl
  | applied owner c args ho ha =>
    obtain ⟨hdeclared, hsaturated⟩ := h _ (.self _)
    obtain ⟨decl, hdecl⟩ := Option.isSome_iff_exists.1 (hdeclared c rfl)
    refine .applied hdecl (hsaturated owner c args decl rfl hdecl).symm ?_ ?_
    · rintro o rfl
      exact ho o rfl fun part hpart => h part (.owner hpart)
    · intro a hmem
      exact ha a hmem fun part hpart => h part (.arg hmem hpart)
  | var v => exact .var v
  | wildcard lower upper hl hu =>
    refine .wildcard ?_ ?_
    · intro l hmem
      exact hl l hmem fun part hpart => h part (.lower hmem hpart)
    · intro u hmem
      exact hu u hmem fun part hpart => h part (.upper hmem hpart)

theorem admissible_iff {s : Store} {d : Descriptor} :
    s.Admissible d ↔ s.WellFormed d ∧ ∃ c, d.raw? = some c := by
  constructor
  · intro h
    refine ⟨wellFormed_of_parts fun part hpart => ⟨fun c => h.declared part c hpart, ?_⟩, h.nominal⟩
    rintro owner c args decl rfl hdecl
    exact h.saturated owner c args decl hpart hdecl
  · rintro ⟨hwf, hnominal⟩
    refine ⟨hnominal, ?_, ?_⟩
    · intro part c hpart hraw
      obtain ⟨decl, hdecl⟩ := (WellFormed.part hpart hwf).declared hraw
      rw [contains, hdecl]
      rfl
    · intro owner c args decl hpart hdecl
      exact ((WellFormed.part hpart hwf).arity_eq hdecl).symm

end Store

/-! ## Obtaining keys -/

namespace Key

/-- The key is one that the library returns for the store, or has returned before the store changed, as long as no
class number is given out twice. -/
inductive Obtained : Store → Key → Prop
  | of {s : Store} {d : Descriptor} {k : Key} (h : Key.of s d = .ok k) : Obtained s k
  | template {s : Store} {d : Descriptor} {k : Key} (h : Key.template s d = .ok k) : Obtained s k
  | bare {s : Store} {c : ClassId} {k : Key} (h : Key.bare s c = .ok k) : Obtained s k
  | generic {s : Store} {c : ClassId} {args : List Descriptor} {k : Key} (h : Key.generic s c args = .ok k) :
      Obtained s k
  | actualized {s : Store} {k k' : Key} {b : Bindings} (hk : Obtained s k) (h : k.actualize s b = .ok k') :
      Obtained s k'
  | erased {s : Store} {k k' : Key} (hk : Obtained s k) (h : k.erase s = .ok k') : Obtained s k'
  | upcast {s : Store} {k k' : Key} {ancestor : ClassId} (hk : Obtained s k) (h : k.upcast s ancestor = .ok k') :
      Obtained s k'
  | captured {s : Store} {token base : ClassId} {k : Key} (h : Key.capture s token base = .ok k) : Obtained s k
  | returned {s : Store} {m : Signature} {receiver k : Key} (hreceiver : Obtained s receiver)
      (h : m.returnKey s receiver = .ok k) : Obtained s k
  | tagged {s : Store} {t : Tag} {k : Key} (h : t.toKey s = .ok k) : Obtained s k
  | later {s : Store} {k : Key} (ch : Change) (hk : Obtained s k) (hnew : ¬ s.contains s.nextId) :
      Obtained (s.change ch) k

/-- What the key carries agrees with its descriptor: the class, the text, that the descriptor was checked, and whether
variables occur in it. -/
structure Faithful (s : Store) (k : Key) : Prop where
  raw : k.descriptor.raw? = some k.raw
  text : k.text = s.text k.descriptor
  arity : s.checkArity k.descriptor = .ok ()
  isPartial : k.isPartial = true ↔ ∃ v, k.descriptor.HasPart (.var v)

theorem hasVars_iff_hasPart {d : Descriptor} : d.hasVars = true ↔ ∃ v, d.HasPart (.var v) := by
  rw [Descriptor.hasVars_eq, Bool.not_eq_true', List.isEmpty_eq_false_iff_exists_mem]
  exact exists_congr fun v => Descriptor.hasPart_var_iff.symm

theorem exists_freeze_iff {s : Store} {d : Descriptor} {allowVars : Bool} :
    (∃ k, freeze s d allowVars = .ok k) ↔
      s.Admissible d ∧ (allowVars = false → ∀ v, ¬ d.HasPart (.var v)) := by
  rw [Store.admissible_iff, ← Descriptor.vars_eq_nil_iff_forall]
  constructor
  · rintro ⟨k, hk⟩
    obtain ⟨hwf, hresolved, c, hraw, _⟩ := freeze_eq_ok_iff.1 hk
    exact ⟨⟨hwf, c, hraw⟩, hresolved⟩
  · rintro ⟨⟨hwf, c, hraw⟩, hresolved⟩
    exact ⟨_, freeze_eq_ok_iff.2 ⟨hwf, hresolved, c, hraw, rfl⟩⟩

theorem madeIn_iff_faithful {s : Store} {k : Key} : k.MadeIn s ↔ k.Faithful s := by
  constructor
  · intro h
    refine ⟨h.raw?_eq, h.text_eq, Store.checkArity_eq_ok_iff.2 h.wellFormed, ?_⟩
    rw [← not_iff_not, Bool.not_eq_true, not_exists, ← Descriptor.vars_eq_nil_iff_forall]
    exact ⟨h.closed, h.isPartial_eq_false⟩
  · intro h
    refine ⟨k.descriptor, true, freeze_eq_ok_iff.2 ⟨Store.checkArity_eq_ok_iff.1 h.arity, nofun, k.raw, h.raw, ?_⟩⟩
    have hpartial : k.isPartial = k.descriptor.hasVars :=
      Bool.eq_iff_iff.2 (h.isPartial.trans hasVars_iff_hasPart.symm)
    cases k
    simp only [Bool.true_and, Key.mk.injEq, true_and]
    exact ⟨h.text, hpartial⟩

/-! ## Each way to a key -/

theorem MadeIn.actualized {s : Store} {k k' : Key} {b : Bindings} (h : k.actualize s b = .ok k') : k'.MadeIn s := by
  obtain ⟨d, _, hof⟩ := bind_eq_ok_iff.1 h
  exact ⟨d, false, hof⟩

theorem MadeIn.generic {s : Store} {c : ClassId} {args : List Descriptor} {k : Key}
    (h : Key.generic s c args = .ok k) : k.MadeIn s := by
  obtain ⟨template, _, h⟩ := bind_eq_ok_iff.1 h
  obtain ⟨d, _, hof⟩ := bind_eq_ok_iff.1 h
  exact ⟨d, false, hof⟩

theorem MadeIn.erased {s : Store} {k k' : Key} (hk : k.MadeIn s) (h : k.erase s = .ok k') : k'.MadeIn s := by
  unfold erase at h
  split at h
  · cases h
    exact hk
  · exact ⟨.bare k.raw, false, h⟩

theorem MadeIn.upcast {s : Store} {k k' : Key} {ancestor : ClassId} (hk : k.MadeIn s)
    (h : k.upcast s ancestor = .ok k') : k'.MadeIn s := by
  obtain ⟨_, _, h⟩ := bind_eq_ok_iff.1 h
  obtain ⟨found, _, h⟩ := bind_eq_ok_iff.1 h
  cases found with
  | none => cases h
  | some d =>
    dsimp only at h
    split at h
    · cases h
      exact hk
    · exact ⟨d, k.isPartial, h⟩

theorem MadeIn.captured {s : Store} {token base : ClassId} {k : Key} (h : Key.capture s token base = .ok k) :
    k.MadeIn s := by
  obtain ⟨decl, _, h⟩ := bind_eq_ok_iff.1 h
  split at h
  · exact ⟨_, false, h⟩
  · cases h

theorem MadeIn.returned {s : Store} {m : Signature} {receiver k : Key} (h : m.returnKey s receiver = .ok k) :
    k.MadeIn s := by
  obtain ⟨seen, _, h⟩ := bind_eq_ok_iff.1 h
  split at h
  · split at h
    · exact ⟨_, false, h⟩
    · cases h
  · split at h
    · exact ⟨_, true, h⟩
    · exact ⟨_, false, h⟩

theorem MadeIn.later {s s' : Store} {k : Key} (hk : k.MadeIn s) (hext : s.Extends s') : k.MadeIn s' := by
  obtain ⟨d, allowVars, hk⟩ := hk
  exact ⟨d, allowVars, freeze_of_extends hext hk⟩

theorem Obtained.madeIn {s : Store} {k : Key} (h : Obtained s k) : k.MadeIn s := by
  induction h with
  | of h => exact ⟨_, false, h⟩
  | template h => exact ⟨_, true, h⟩
  | bare h => exact ⟨_, false, h⟩
  | generic h => exact .generic h
  | actualized _ h => exact .actualized h
  | erased _ h hk => exact hk.erased h
  | upcast _ h hk => exact hk.upcast h
  | captured h => exact .captured h
  | returned _ h => exact .returned h
  | tagged h => exact ⟨_, false, h⟩
  | later ch _ hnew hk => exact hk.later (Store.extends_change hnew ch)

theorem obtained_of_madeIn {s : Store} {k : Key} (h : k.MadeIn s) : Obtained s k := by
  obtain ⟨d, allowVars, hk⟩ := h
  cases allowVars with
  | false => exact .of hk
  | true => exact .template hk

/-- Keys are made of the admissible descriptors without variables, templates of all admissible ones; and the keys that
can be obtained in a store are those that carry what is right. -/
theorem obtained_exactly_when_faithful (s : Store) :
    (∀ d, (∃ k, Key.of s d = .ok k) ↔ s.Admissible d ∧ ∀ v, ¬ d.HasPart (.var v)) ∧
    (∀ d, (∃ k, Key.template s d = .ok k) ↔ s.Admissible d) ∧
    (∀ d k, Key.of s d = .ok k ∨ Key.template s d = .ok k → k.descriptor = d) ∧
    ∀ k, Obtained s k ↔ k.Faithful s := by
  refine ⟨fun d => ?_, fun d => ?_, ?_, fun k => ?_⟩
  · exact exists_freeze_iff.trans (and_congr_right fun _ => ⟨fun h => h rfl, fun h _ => h⟩)
  · exact exists_freeze_iff.trans (and_iff_left nofun)
  · rintro d k (hk | hk)
    · obtain ⟨_, _, c, _, rfl⟩ := freeze_eq_ok_iff.1 hk
      rfl
    · obtain ⟨_, _, c, _, rfl⟩ := freeze_eq_ok_iff.1 hk
      rfl
  · exact ⟨fun h => madeIn_iff_faithful.1 h.madeIn, fun h => obtained_of_madeIn (madeIn_iff_faithful.2 h)⟩

/-- `NumberBox<T>`, with the class's own parameter. -/
def boxTemplate : Key := ⟨.generic ⟨7⟩ [.var ⟨.ofClass ⟨7⟩, "T"⟩], ⟨7⟩, "NumberBox<T>", true⟩

/-- A method of sequences with a type parameter `R`, which returns `Sequence<R>`. -/
def mapping : Signature := ⟨⟨5⟩, "map", [⟨"R", []⟩], [], .generic ⟨5⟩ [.var ⟨.ofMethod ⟨5⟩ "map", "R"⟩]⟩

def mapped : Key := ⟨mapping.returns, ⟨5⟩, "Sequence<R>", true⟩

/-- `Sequence<? super Sequence<Text, Text>.Inner<Text>>`, with one argument too many in the owner of a bound. -/
def crowded : Descriptor :=
  .generic ⟨5⟩ [.superOf (.applied (some (.generic ⟨5⟩ [.bare ⟨4⟩, .bare ⟨4⟩])) ⟨8⟩ [.bare ⟨4⟩])]

/-- A template is filled, the key is seen as a sequence, and a call through it returns a template, which is kept while
the name of sequences is registered anew. -/
theorem shapes_keys_faithful :
    (Key.template shapes boxTemplate.descriptor = .ok boxTemplate ∧
      boxTemplate.actualize shapes (.queue [.bare ⟨3⟩]) = .ok (shapesKey ⟨7⟩ [.bare ⟨3⟩]) ∧
      (shapesKey ⟨7⟩ [.bare ⟨3⟩]).upcast shapes ⟨5⟩ = .ok (shapesKey ⟨5⟩ [.bare ⟨3⟩]) ∧
      mapping.returnKey shapes (shapesKey ⟨5⟩ [.bare ⟨3⟩]) = .ok mapped ∧
      mapped.Faithful (shapes.change (.register ⟨.ordinary, "Sequence", [], [], none⟩))) ∧
    ¬ ∃ k, Key.of shapes crowded = .ok k := by
  constructor
  · have htemplate : Key.template shapes boxTemplate.descriptor = .ok boxTemplate := by rfl
    have hfilled : boxTemplate.actualize shapes (.queue [.bare ⟨3⟩]) = .ok (shapesKey ⟨7⟩ [.bare ⟨3⟩]) := by rfl
    have hseen : (shapesKey ⟨7⟩ [.bare ⟨3⟩]).upcast shapes ⟨5⟩ = .ok (shapesKey ⟨5⟩ [.bare ⟨3⟩]) := by rfl
    have hmapped : mapping.returnKey shapes (shapesKey ⟨5⟩ [.bare ⟨3⟩]) = .ok mapped := by rfl
    have hobtained : Obtained shapes mapped :=
      .returned (.upcast (.actualized (.template htemplate) hfilled) hseen) hmapped
    refine ⟨htemplate, hfilled, hseen, hmapped, ?_⟩
    exact ((obtained_exactly_when_faithful _).2.2.2 mapped).1 (.later _ hobtained (by decide))
  · intro hkey
    have hadmissible := (((obtained_exactly_when_faithful shapes).1 crowded).1 hkey).1
    have hpart : crowded.HasPart (.generic ⟨5⟩ [.bare ⟨4⟩, .bare ⟨4⟩]) :=
      .arg (List.mem_singleton.2 rfl) (.lower (List.mem_singleton.2 rfl) (.owner (.self _)))
    cases hadmissible.saturated none ⟨5⟩ _ _ hpart rfl

end Key

end Generics
