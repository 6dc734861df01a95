import Mathlib.Logic.Relation
import Generics.Hierarchy.Subclass
import Generics.Proofs.Climbing
import Generics.Proofs.Histories
import Generics.Proofs.Sameness
import Generics.Proofs.Visiting

/-! # The walk up finds exactly what is declared

`Store.Step` is one step up: from a nominal type to a declared supertype of its class, with what the type fixes
put in, or with nothing but its class if the type leaves its arguments open. `Store.Fixes` says what a type fixes,
and the bindings that the walk gathers are that (`fixes_iff_bindingsOf`). `Store.Reaches` is any number of
steps. The walk answers with a type that is reached (`reaches_of_walkUp`), and where it answers with nothing no
type of the class is reached.

The second half speaks of classes only. The walk turns back where a class is on the path already, although the
type there may be another one than before. But if a class is above another at all, it is so along a path without
repetitions, and such a path is never cut. `Avoids path` is the relation that carries this: being above along
classes outside the path. -/

namespace Generics
set_option autoImplicit false

open Result

/-! ## Steps -/

def ClassDecl.ownVars (decl : ClassDecl) (c : ClassId) : List TypeVar :=
  decl.params.map fun p => ⟨.ofClass c, p.name⟩

/-- The argument for a parameter of the class, the last one if several parameters have its name. -/
def ClassDecl.argument (decl : ClassDecl) (c : ClassId) (args : List Descriptor) (v : TypeVar) : Option Descriptor :=
  ((decl.ownVars c).zip args).reverse.lookup v

namespace Store

/-- What a type fixes for type variables: its arguments for the parameters of its class, and in preference what its
owner fixes. -/
inductive Fixes (s : Store) : Descriptor → (TypeVar → Option Descriptor) → Prop
  | bare (c : ClassId) : Fixes s (.bare c) fun _ => none
  | var (v : TypeVar) : Fixes s (.var v) fun _ => none
  | wildcard (lower upper : List Descriptor) : Fixes s (.wildcard lower upper) fun _ => none
  | unowned {c : ClassId} {decl : ClassDecl} {args : List Descriptor} (hc : s.get? c = some decl)
      (hargs : decl.arity = args.length) : Fixes s (.applied none c args) (decl.argument c args)
  | owned {owner : Descriptor} {c : ClassId} {decl : ClassDecl} {args : List Descriptor}
      {f : TypeVar → Option Descriptor} (hc : s.get? c = some decl) (hargs : decl.arity = args.length)
      (howner : Fixes s owner f) :
      Fixes s (.applied (some owner) c args) fun v => (f v).or (decl.argument c args v)

/-- From a nominal type to a supertype as it is seen from there. -/
inductive Step (s : Store) : Descriptor → Descriptor → Prop
  | opened {c p : ClassId} {decl : ClassDecl} {supertype : Descriptor} (hc : s.get? c = some decl)
      (hp : decl.params ≠ []) (hs : supertype ∈ decl.supertypes) (hraw : supertype.raw? = some p) :
      Step s (.bare c) (.bare p)
  | bound {d : Descriptor} {c : ClassId} {decl : ClassDecl} {supertype : Descriptor} {σ : Substitution}
      (hd : d.raw? = some c) (hc : s.get? c = some decl) (ho : d = .bare c → decl.params = [])
      (hs : supertype ∈ decl.supertypes) (hσ : s.Fixes d σ.get?) : Step s d (supertype.subst σ)

def Reaches (s : Store) : Descriptor → Descriptor → Prop := Relation.ReflTransGen s.Step

def Parent (s : Store) (c p : ClassId) : Prop := ∃ decl, s.get? c = some decl ∧ p ∈ decl.parents

def NominalSupertypes (s : Store) : Prop :=
  ∀ c decl, s.get? c = some decl → ∀ supertype ∈ decl.supertypes, supertype.raw?.isSome

theorem forall_get? {s : Store} {P : ClassId → ClassDecl → Prop} (h : ∀ x ∈ s.classes.toList, P ⟨x.1⟩ x.2)
    {c : ClassId} {decl : ClassDecl} (hc : s.get? c = some decl) : P c decl :=
  h (c.num, decl) (mem_classes.2 hc)

/-- The declarations of all classes. -/
def decls (s : Store) : List ClassDecl := s.classes.toList.map (·.2)

theorem mem_decls_of_get? {s : Store} {c : ClassId} {decl : ClassDecl} (h : s.get? c = some decl) :
    decl ∈ s.decls :=
  List.mem_map.2 ⟨(c.num, decl), mem_classes.2 h, rfl⟩

theorem require_eq_ok_iff {s : Store} {c : ClassId} {decl : ClassDecl} :
    s.require c = .ok decl ↔ s.get? c = some decl := by
  unfold require
  cases s.get? c <;> simp

theorem rawOf_eq_ok_iff {s : Store} {d : Descriptor} {c : ClassId} :
    s.rawOf d = .ok c ↔ d.raw? = some c := by
  unfold rawOf
  cases d.raw? <;> simp

theorem mem_parents {decl : ClassDecl} {p : ClassId} :
    p ∈ decl.parents ↔ ∃ supertype ∈ decl.supertypes, supertype.raw? = some p := by
  simp [ClassDecl.parents, List.mem_filterMap]

theorem raw?_subst {d : Descriptor} {c : ClassId} (σ : Substitution) (h : d.raw? = some c) :
    (d.subst σ).raw? = some c := by
  cases d with
  | bare c' => exact h
  | applied owner c' args => exact h
  | var v => simp [Descriptor.raw?] at h
  | wildcard lower upper => simp [Descriptor.raw?] at h

theorem erase?_eq_some_iff {d e : Descriptor} : d.erase? = some e ↔ ∃ c, d.raw? = some c ∧ e = .bare c := by
  unfold Descriptor.erase?
  cases d.raw? <;> simp [eq_comm]

/-! ## Bindings -/

end Store

theorem Substitution.get?_insertAll (σ : Substitution) (bindings : List (TypeVar × Descriptor)) (v : TypeVar) :
    (σ.insertAll bindings).get? v = (bindings.reverse.lookup v).or (σ.get? v) := by
  induction bindings generalizing σ with
  | nil => rfl
  | cons b bindings ih =>
    obtain ⟨w, d⟩ := b
    have hfirst : (σ.insertAll ((w, d) :: bindings)).get? v = ((σ.insert w d).insertAll bindings).get? v := rfl
    rw [hfirst, ih, get?_insert, List.reverse_cons, List.lookup_append, Option.or_assoc]
    by_cases hv : v = w
    · simp [hv]
    · have hw : (v == w) = false := by simpa using hv
      simp [List.lookup_cons, hv, hw]

namespace Store

section Bindings

variable {s : Store}

theorem bindingsFrom_applied {owner : Option Descriptor} {c : ClassId} {decl : ClassDecl} {args : List Descriptor}
    (hc : s.get? c = some decl) (hargs : decl.arity = args.length) (σ : Substitution) :
    s.bindingsFrom σ (.applied owner c args) =
      s.bindingsFromOwner (σ.insertAll ((decl.ownVars c).zip args)) owner := by
  rw [bindingsFrom, require_eq_ok_iff.2 hc, ok_bind, if_neg (Decidable.not_not.2 hargs)]
  rfl

/-- Adding to bindings what a type binds adds what it fixes. -/
theorem bindingsFrom_eq_ok {d : Descriptor} {σ σ' : Substitution} (h : s.bindingsFrom σ d = .ok σ') :
    ∃ f, s.Fixes d f ∧ ∀ v, σ'.get? v = (f v).or (σ.get? v) := by
  induction d using Descriptor.induct generalizing σ with
  | bare c =>
    cases h
    exact ⟨_, .bare c, fun _ => rfl⟩
  | applied owner c args ho ha =>
    rw [bindingsFrom, bind_eq_ok_iff] at h
    obtain ⟨decl, hdecl, h⟩ := h
    have hc := require_eq_ok_iff.1 hdecl
    by_cases harity : decl.arity ≠ args.length
    · rw [if_pos harity] at h
      cases h
    · rw [if_neg harity] at h
      have hargs := Decidable.not_not.1 harity
      cases owner with
      | none =>
        cases h
        exact ⟨_, .unowned hc hargs, σ.get?_insertAll _⟩
      | some o =>
        obtain ⟨f, hf, hget⟩ := ho o rfl h
        refine ⟨_, .owned hc hargs hf, fun v => ?_⟩
        rw [hget, Substitution.get?_insertAll, Option.or_assoc]
        rfl
  | var v =>
    cases h
    exact ⟨_, .var v, fun _ => rfl⟩
  | wildcard lower upper =>
    cases h
    exact ⟨_, .wildcard lower upper, fun _ => rfl⟩

theorem Fixes.bindingsFrom {d : Descriptor} {f : TypeVar → Option Descriptor} (h : s.Fixes d f) (σ : Substitution) :
    ∃ σ', s.bindingsFrom σ d = .ok σ' ∧ ∀ v, σ'.get? v = (f v).or (σ.get? v) := by
  induction h generalizing σ with
  | bare c => exact ⟨σ, rfl, fun _ => rfl⟩
  | var v => exact ⟨σ, rfl, fun _ => rfl⟩
  | wildcard lower upper => exact ⟨σ, rfl, fun _ => rfl⟩
  | @unowned c decl args hc hargs =>
    refine ⟨σ.insertAll ((decl.ownVars c).zip args), ?_, σ.get?_insertAll _⟩
    rw [bindingsFrom_applied hc hargs]
    rfl
  | @owned o c decl args f hc hargs _ ih =>
    obtain ⟨σ', hσ', hget⟩ := ih (σ.insertAll ((decl.ownVars c).zip args))
    refine ⟨σ', ?_, fun v => ?_⟩
    · rw [bindingsFrom_applied hc hargs]
      exact hσ'
    · rw [hget, Substitution.get?_insertAll, Option.or_assoc]
      rfl

/-- The bindings of a type are what it fixes. -/
theorem fixes_iff_bindingsOf {d : Descriptor} {f : TypeVar → Option Descriptor} :
    s.Fixes d f ↔ ∃ σ, s.bindingsOf d = .ok σ ∧ σ.get? = f := by
  constructor
  · intro h
    obtain ⟨σ, hσ, hget⟩ := h.bindingsFrom .empty
    exact ⟨σ, hσ, funext fun v => by rw [hget, Substitution.get?_empty, Option.or_none]⟩
  · rintro ⟨σ, hσ, rfl⟩
    obtain ⟨f, hf, hget⟩ := bindingsFrom_eq_ok hσ
    have heq : σ.get? = f := funext fun v => by rw [hget, Substitution.get?_empty, Option.or_none]
    rw [heq]
    exact hf

/-- What is put in for what a type fixes is what is put in for its bindings. -/
theorem Fixes.exists_bindingsOf {d : Descriptor} {σ : Substitution} (h : s.Fixes d σ.get?) :
    ∃ τ, s.bindingsOf d = .ok τ ∧ ∀ e : Descriptor, e.subst σ = e.subst τ := by
  obtain ⟨τ, hτ, hget⟩ := fixes_iff_bindingsOf.1 h
  exact ⟨τ, hτ, fun e => Descriptor.subst_congr fun v _ => congrFun hget.symm v⟩

theorem Step.of_bindingsOf {d supertype : Descriptor} {c : ClassId} {decl : ClassDecl} {σ : Substitution}
    (hd : d.raw? = some c) (hc : s.get? c = some decl) (ho : d = .bare c → decl.params = [])
    (hs : supertype ∈ decl.supertypes) (hσ : s.bindingsOf d = .ok σ) : s.Step d (supertype.subst σ) :=
  .bound hd hc ho hs (fixes_iff_bindingsOf.2 ⟨σ, hσ, rfl⟩)

end Bindings

/-! ## Classes along steps -/

theorem Step.parent {s : Store} (hn : s.NominalSupertypes) {d e : Descriptor} (h : s.Step d e) :
    ∃ c p, d.raw? = some c ∧ e.raw? = some p ∧ s.Parent c p := by
  cases h with
  | @opened c p decl supertype hc hp hs hraw =>
    exact ⟨c, p, rfl, rfl, decl, hc, mem_parents.2 ⟨supertype, hs, hraw⟩⟩
  | @bound _ c decl supertype σ hd hc ho hs hσ =>
    obtain ⟨p, hraw⟩ := Option.isSome_iff_exists.1 (hn c decl hc supertype hs)
    exact ⟨c, p, hd, raw?_subst σ hraw, decl, hc, mem_parents.2 ⟨supertype, hs, hraw⟩⟩

theorem Reaches.above {s : Store} (hn : s.NominalSupertypes) {d e : Descriptor} {c : ClassId}
    (h : s.Reaches d e) (hd : d.raw? = some c) :
    ∃ p, e.raw? = some p ∧ Relation.ReflTransGen s.Parent c p := by
  induction h with
  | refl => exact ⟨c, hd, .refl⟩
  | tail _ hstep ih =>
    obtain ⟨p, hp, hup⟩ := ih
    obtain ⟨p', q, hp', hq, hparent⟩ := hstep.parent hn
    rw [hp] at hp'
    cases hp'
    exact ⟨q, hq, hup.tail hparent⟩

theorem step_of_seenFrom {s : Store} {d supertype above : Descriptor} {c : ClassId} {decl : ClassDecl}
    {view : Option Substitution} (hd : d.raw? = some c) (hc : s.get? c = some decl)
    (hs : supertype ∈ decl.supertypes) (hview : s.viewOf d decl = .ok view)
    (hseen : seenFrom view supertype = .ok (some above)) : s.Step d above := by
  have bound : ∀ σ, s.bindingsOf d = .ok σ → (d = .bare c → decl.params = []) →
      seenFrom (some σ) supertype = .ok (some above) → s.Step d above := by
    intro σ hσ ho h
    rw [seenFrom, map_eq_ok_iff] at h
    obtain ⟨above', happ, ha⟩ := h
    cases ha
    rw [(Substitution.apply_eq_ok_iff.1 happ).1]
    exact .of_bindingsOf hd hc ho hs hσ
  cases d with
  | bare c' =>
    cases hd
    simp only [viewOf] at hview
    split at hview
    · rename_i hempty
      rw [map_eq_ok_iff] at hview
      obtain ⟨σ, hσ, rfl⟩ := hview
      exact bound σ hσ (fun _ => List.isEmpty_iff.1 hempty) hseen
    · rename_i hempty
      cases hview
      obtain ⟨p, hp, rfl⟩ := erase?_eq_some_iff.1 (Except.ok.inj hseen)
      exact .opened hc (fun h => hempty (List.isEmpty_iff.2 h)) hs hp
  | applied owner c' args =>
    simp only [viewOf, map_eq_ok_iff] at hview
    obtain ⟨σ, hσ, rfl⟩ := hview
    exact bound σ hσ (fun h => by cases h) hseen
  | var v => simp [Descriptor.raw?] at hd
  | wildcard lower upper => simp [Descriptor.raw?] at hd

/-! ## The walk -/

/-- All that an answer of the walk can come from. -/
theorem walkUp_cases {s : Store} {target : ClassId} {levels : Nat} {path : List ClassId} {d : Descriptor}
    {n n' : Nat} {found : Option Descriptor} (h : (s.walkUp target levels path d).run n = .ok (found, n')) :
    ∃ c, d.raw? = some c ∧
      ((c = target ∧ found = some d) ∨
        (c ≠ target ∧ ∃ below, levels = below + 1 ∧
          ((c ∈ path ∧ found = none) ∨
            (c ∉ path ∧ ∃ decl view, s.get? c = some decl ∧ s.viewOf d decl = .ok view ∧
              (decl.supertypes.findSomeM? (s.walkInto target below (c :: path) view)).run (n + 1) =
                .ok (found, n'))))) := by
  rw [walkUp_run, bind_eq_ok_iff] at h
  obtain ⟨c, hraw, h⟩ := h
  refine ⟨c, rawOf_eq_ok_iff.1 hraw, ?_⟩
  by_cases hc : c = target
  · rw [if_pos hc] at h
    cases h
    exact .inl ⟨hc, rfl⟩
  · rw [if_neg hc] at h
    split at h
    · cases h
    · cases levels with
      | zero => cases h
      | succ below =>
        refine .inr ⟨hc, below, rfl, ?_⟩
        by_cases hp : c ∈ path
        · simp only [if_pos hp] at h
          cases h
          exact .inl ⟨hp, rfl⟩
        · simp only [if_neg hp, bind_eq_ok_iff] at h
          obtain ⟨decl, hdecl, view, hview, hloop⟩ := h
          exact .inr ⟨hp, decl, view, require_eq_ok_iff.1 hdecl, hview, hloop⟩

theorem reaches_of_walkUp {s : Store} {target : ClassId} {levels : Nat} {path : List ClassId}
    {d e : Descriptor} {n n' : Nat} (h : (s.walkUp target levels path d).run n = .ok (some e, n')) :
    e.raw? = some target ∧ s.Reaches d e := by
  induction levels generalizing path d n n' with
  | zero =>
    obtain ⟨c, hraw, ⟨rfl, he⟩ | ⟨_, below, hbelow, _⟩⟩ := walkUp_cases h
    · cases he
      exact ⟨hraw, .refl⟩
    · cases hbelow
  | succ levels ih =>
    obtain ⟨c, hraw, ⟨rfl, he⟩ | ⟨_, below, hbelow, hrest⟩⟩ := walkUp_cases h
    · cases he
      exact ⟨hraw, .refl⟩
    · cases hbelow
      rcases hrest with ⟨_, he⟩ | ⟨_, decl, view, hdecl, hview, hloop⟩
      · cases he
      · obtain ⟨supertype, hs, m, m', hinto⟩ := exists_of_findSomeM?_run hloop
        rw [walkInto_run, bind_eq_ok_iff] at hinto
        obtain ⟨seen, hseen, hwalk⟩ := hinto
        cases seen with
        | none => cases hwalk
        | some above =>
          obtain ⟨htarget, hreach⟩ := ih hwalk
          exact ⟨htarget, .head (step_of_seenFrom hraw hdecl hs hview hseen) hreach⟩

/-- The walks up from related types find related types, after as many visits, if related types are of one class and
see its supertypes as related types. -/
theorem related_walkUp (L : Relator) {s : Store} {D : Descriptor → Descriptor → Prop}
    (hraw : ∀ d e, D d e → L.Holds (· = ·) (s.rawOf d) (s.rawOf e))
    (hseen : ∀ d e c decl, D d e → d.raw? = some c → s.get? c = some decl →
      L.Holds
        (fun view view' => ∀ supertype ∈ decl.supertypes,
          L.Holds (Option.Rel D) (seenFrom view supertype) (seenFrom view' supertype))
        (s.viewOf d decl) (s.viewOf e decl))
    (target : ClassId) (levels : Nat) (path : List ClassId) {d e : Descriptor} (h : D d e) (n : Nat) :
    L.Holds (fun x y => Option.Rel D x.1 y.1 ∧ x.2 = y.2) ((s.walkUp target levels path d).run n)
      ((s.walkUp target levels path e).run n) := by
  induction levels generalizing path d e n with
  | zero =>
    rw [walkUp_run, walkUp_run]
    refine L.bind (hraw d e h) fun c c' _ heq => ?_
    cases heq
    split
    · exact L.ok ⟨.some h, rfl⟩
    · split <;> exact L.error _
  | succ levels ih =>
    rw [walkUp_run, walkUp_run]
    refine L.bind (hraw d e h) fun c c' hc heq => ?_
    cases heq
    split
    · exact L.ok ⟨.some h, rfl⟩
    · split
      · exact L.error _
      · dsimp only
        split
        · exact L.ok ⟨.none, rfl⟩
        · refine L.bind (L.refl (s.require c)) fun decl decl' hdecl heq => ?_
          cases heq
          refine L.bind (hseen d e c decl h (rawOf_eq_ok_iff.1 hc) (require_eq_ok_iff.1 hdecl))
            fun view view' _ hviews => ?_
          refine L.findSomeM?_run (fun supertype hmem m => ?_) (n + 1)
          rw [walkInto_run, walkInto_run]
          refine L.bind (hviews supertype hmem) fun seen seen' _ habove => ?_
          cases habove with
          | none => exact L.ok ⟨.none, rfl⟩
          | some habove => exact ih (c :: path) habove m

/-! ## Paths that the walk does not cut -/

/-- Being above along classes that are outside the path, the upper end apart. -/
def Avoids (s : Store) (path : List ClassId) : ClassId → ClassId → Prop :=
  Relation.ReflTransGen fun c p => c ∉ path ∧ s.Parent c p

/-- A class is either no obstacle, or what lies above it is above without coming back to it. -/
theorem Avoids.cut {s : Store} {path : List ClassId} {c target : ClassId} (h : s.Avoids path c target)
    (x : ClassId) :
    s.Avoids (x :: path) c target ∨ (x ∉ path ∧ ∃ p, s.Parent x p ∧ s.Avoids (x :: path) p target) := by
  induction h using Relation.ReflTransGen.head_induction_on with
  | refl => exact .inl .refl
  | @head c p hstep _ ih =>
    obtain ⟨hpath, hparent⟩ := hstep
    rcases ih with hp | hx
    · by_cases hcx : c = x
      · subst hcx
        exact .inr ⟨hpath, p, hparent, hp⟩
      · exact .inl (.head ⟨by simp [hcx, hpath], hparent⟩ hp)
    · exact .inr hx

theorem Avoids.step {s : Store} {path : List ClassId} {c target : ClassId} (h : s.Avoids path c target)
    (hne : c ≠ target) : c ∉ path ∧ ∃ p, s.Parent c p ∧ s.Avoids (c :: path) p target := by
  rcases Relation.ReflTransGen.cases_head h with rfl | ⟨p, ⟨hpath, hparent⟩, hp⟩
  · exact absurd rfl hne
  · rcases Avoids.cut hp c with hp' | hc
    · exact ⟨hpath, p, hparent, hp'⟩
    · exact hc

theorem avoids_nil {s : Store} {c p : ClassId} (h : Relation.ReflTransGen s.Parent c p) : s.Avoids [] c p :=
  Relation.ReflTransGen.mono (fun _ _ hparent => ⟨by simp, hparent⟩) _ _ h

theorem raw?_of_seenFrom {view : Option Substitution} {supertype : Descriptor} {seen : Option Descriptor}
    {p : ClassId} (hp : supertype.raw? = some p) (h : seenFrom view supertype = .ok seen) :
    ∃ above, seen = some above ∧ above.raw? = some p := by
  cases view with
  | none =>
    cases h
    exact ⟨.bare p, erase?_eq_some_iff.2 ⟨p, hp, rfl⟩, rfl⟩
  | some σ =>
    rw [seenFrom, map_eq_ok_iff] at h
    obtain ⟨above, happ, rfl⟩ := h
    refine ⟨above, rfl, ?_⟩
    rw [(Substitution.apply_eq_ok_iff.1 happ).1]
    exact raw?_subst σ hp

/-- Where the walk finds nothing, no class path that it does not cut leads to its target. -/
theorem not_avoids_of_walkUp {s : Store} {target c : ClassId} {levels : Nat} {path : List ClassId}
    {d : Descriptor} {n n' : Nat} (hraw : d.raw? = some c)
    (h : (s.walkUp target levels path d).run n = .ok (none, n')) : ¬ s.Avoids path c target := by
  induction levels generalizing path d n n' c with
  | zero =>
    obtain ⟨_, _, ⟨_, he⟩ | ⟨_, below, hbelow, _⟩⟩ := walkUp_cases h
    · cases he
    · cases hbelow
  | succ levels ih =>
    intro havoids
    obtain ⟨c', hraw', ⟨_, he⟩ | ⟨hne, below, hbelow, hrest⟩⟩ := walkUp_cases h
    · cases he
    · cases hbelow
      rw [hraw] at hraw'
      cases hraw'
      obtain ⟨hpath, p, ⟨decl, hdecl, hp⟩, hup⟩ := havoids.step hne
      rcases hrest with ⟨hmem, _⟩ | ⟨_, decl', view, hdecl', hview, hloop⟩
      · exact hpath hmem
      · rw [hdecl] at hdecl'
        cases hdecl'
        -- the first class of a path that is not cut is that of a supertype, and the walk went into all of them
        obtain ⟨supertype, hs, hsp⟩ := mem_parents.1 hp
        obtain ⟨m, m', hinto⟩ := forall_of_findSomeM?_run hloop supertype hs
        rw [walkInto_run, bind_eq_ok_iff] at hinto
        obtain ⟨seen, hseen, hwalk⟩ := hinto
        obtain ⟨above, rfl, habove⟩ := raw?_of_seenFrom hsp hseen
        exact ih habove hwalk hup

/-! ## Soundness and completeness -/

theorem asSupertype_eq_ok_iff {s : Store} {d : Descriptor} {target : ClassId} {found : Option Descriptor} :
    s.asSupertype d target = .ok found ↔
      ∃ n, (s.walkUp target maxHierarchyDepth [] d).run 0 = .ok (found, n) := by
  rw [asSupertype_eq, StateT.run', map_eq_ok_iff]
  constructor
  · rintro ⟨⟨found', n⟩, h, rfl⟩
    exact ⟨n, h⟩
  · rintro ⟨n, h⟩
    exact ⟨(found, n), h, rfl⟩

theorem reaches_of_asSupertype {s : Store} {d e : Descriptor} {target : ClassId}
    (h : s.asSupertype d target = .ok (some e)) : e.raw? = some target ∧ s.Reaches d e := by
  obtain ⟨n, hwalk⟩ := asSupertype_eq_ok_iff.1 h
  exact reaches_of_walkUp hwalk

theorem not_above_of_asSupertype {s : Store} {d : Descriptor} {c target : ClassId} (hraw : d.raw? = some c)
    (h : s.asSupertype d target = .ok none) : ¬ Relation.ReflTransGen s.Parent c target := by
  obtain ⟨n, hwalk⟩ := asSupertype_eq_ok_iff.1 h
  exact fun hup => not_avoids_of_walkUp hraw hwalk (avoids_nil hup)

/-- A type found is one of the class that is reached by steps; if none is found, none is reached. However the walk
ends, it has left the classes that it entered. -/
theorem asSupertype_sound_and_complete (s : Store) (hn : s.NominalSupertypes) (d : Descriptor)
    (hd : d.raw?.isSome) (target : ClassId) :
    (∀ e, s.asSupertype d target = .ok (some e) → e.raw? = some target ∧ s.Reaches d e) ∧
      (s.asSupertype d target = .ok none → ∀ e, s.Reaches d e → e.raw? ≠ some target) ∧
      ∀ (levels : Nat) (guard : Guard ClassId),
        ((s.climb target levels d).run guard).2.visiting = guard.visiting ∧
          ((s.climb target levels d).run guard).2.depth = guard.depth := by
  refine ⟨fun e h => reaches_of_asSupertype h, ?_, fun levels guard => ?_⟩
  · intro h e hreach hraw
    obtain ⟨c, hc⟩ := Option.isSome_iff_exists.1 hd
    obtain ⟨p, hp, hup⟩ := hreach.above hn hc
    rw [hraw] at hp
    cases hp
    exact not_above_of_asSupertype hc h hup
  · obtain ⟨steps, exceeded, hguard⟩ := s.restores_climb target levels d guard
    rw [hguard]
    exact ⟨rfl, rfl⟩

/-- A class that is below itself with an ever larger argument, and below a second one. -/
def knot : Store := .built
  [.register ⟨.ordinary, "Top", [], [], none⟩,
    .register ⟨.ordinary, "Knot", [⟨"T", []⟩],
      [.generic ⟨2⟩ [.generic ⟨2⟩ [.var ⟨.ofClass ⟨2⟩, "T"⟩]], .generic ⟨3⟩ [.var ⟨.ofClass ⟨2⟩, "T"⟩]], none⟩,
    .register ⟨.interface, "Leaf", [⟨"T", []⟩], [.bare ⟨1⟩], none⟩]

/-- With a class inside the first one, that is below the second one by what its owner fixes. -/
def coil : Store := knot.change
  (.register ⟨.ordinary, "Coil", [⟨"U", []⟩], [.generic ⟨3⟩ [.var ⟨.ofClass ⟨2⟩, "T"⟩]], some ⟨2⟩⟩)

theorem nominal_of_all {s : Store} (h : ∀ decl ∈ s.decls, ∀ supertype ∈ decl.supertypes, supertype.raw?.isSome) :
    s.NominalSupertypes :=
  fun _ decl hc => h decl (mem_decls_of_get? hc)

/-- The walk finds its way past the cycle and through an owner, and knows when there is none:
`Knot<Top>.Coil<Leaf>` is a `Leaf<Top>`. -/
theorem coil_asSupertype :
    coil.NominalSupertypes ∧
      (coil.asSupertype (.generic ⟨2⟩ [.bare ⟨1⟩]) ⟨3⟩ = .ok (some (.generic ⟨3⟩ [.bare ⟨1⟩])) ∧
        coil.Reaches (.generic ⟨2⟩ [.bare ⟨1⟩]) (.generic ⟨3⟩ [.bare ⟨1⟩])) ∧
      (coil.asSupertype (.applied (some (.generic ⟨2⟩ [.bare ⟨1⟩])) ⟨4⟩ [.bare ⟨3⟩]) ⟨3⟩ =
          .ok (some (.generic ⟨3⟩ [.bare ⟨1⟩])) ∧
        coil.Reaches (.applied (some (.generic ⟨2⟩ [.bare ⟨1⟩])) ⟨4⟩ [.bare ⟨3⟩]) (.generic ⟨3⟩ [.bare ⟨1⟩])) ∧
      coil.asSupertype (.generic ⟨2⟩ [.bare ⟨1⟩]) ⟨4⟩ = .ok none ∧
        ∀ e, coil.Reaches (.generic ⟨2⟩ [.bare ⟨1⟩]) e → e.raw? ≠ some ⟨4⟩ := by
  have hn : coil.NominalSupertypes := nominal_of_all (by decide)
  exact ⟨hn,
    ⟨by rfl, ((asSupertype_sound_and_complete coil hn _ rfl ⟨3⟩).1 _ (by rfl)).2⟩,
    ⟨by rfl, ((asSupertype_sound_and_complete coil hn _ rfl ⟨3⟩).1 _ (by rfl)).2⟩,
    by rfl, (asSupertype_sound_and_complete coil hn _ rfl ⟨4⟩).2.1 (by rfl)⟩

end Store

end Generics
