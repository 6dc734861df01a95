import Generics.Proofs.WellFormed

/-! # How many classes the walk enters

The walk up keeps no memory of the classes that it has left, so it enters a class again on every path that leads there.
`Store.trail` lists the classes as it enters them: a class, and then the trails of its parents one after the other. A
class stands in the trail once for every path to it. The walk to a class ends where that class first stands in the
trail, so the number of classes before it is what counts against the limit (`Orderly.follows_walkUp`).

A hierarchy in which no class is reached on two paths has no more in its trail than it has classes. But where two
classes have the same two parents at every step, the trail doubles at every step, and few classes are too many. -/

namespace Generics.Store
set_option autoImplicit false

open Result

variable {s : Store}

/-! ## Trails -/

/-- The classes that are entered from `c` on, as long as no path is longer than `levels`. -/
def trail (s : Store) : Nat → ClassId → List ClassId
  | 0, _ => []
  | levels + 1, c => c :: (s.parentsOf c).flatMap (s.trail levels)

theorem below_of_mem_trail {levels : Nat} {c x : ClassId} (h : x ∈ s.trail levels c) : s.Below c x := by
  induction levels generalizing c with
  | zero => simp [trail] at h
  | succ levels ih =>
    rw [trail, List.mem_cons, List.mem_flatMap] at h
    rcases h with rfl | ⟨p, hp, hx⟩
    · exact .refl
    · exact .head (parent_iff.2 hp) (ih hx)

theorem length_trail_le {levels : Nat} {c : ClassId} (h : (s.trail levels c).Nodup) :
    ((s.trail levels c).length : ℕ∞) ≤ {x | s.Below c x}.encard := by
  have hsub : ((s.trail levels c).toFinset : Set ClassId) ⊆ {x | s.Below c x} := by
    intro x hx
    exact below_of_mem_trail (List.mem_toFinset.1 hx)
  calc ((s.trail levels c).length : ℕ∞) = ((s.trail levels c).toFinset.card : ℕ∞) := by
        rw [List.toFinset_card_of_nodup h]
    _ = ((s.trail levels c).toFinset : Set ClassId).encard := (Set.encard_coe_eq_coe_finsetCard _).symm
    _ ≤ {x | s.Below c x}.encard := Set.encard_le_encard hsub

/-! ## Orderly hierarchies -/

/-- All classes from `c` upwards are declared, without cycles and with at most so many classes on a path, and their
supertypes are nominal, well-formed and not too deep to have anything put in. -/
structure Orderly (s : Store) (levels : Nat) (c : ClassId) : Prop where
  declared : ∀ x, s.Below c x → s.contains x
  acyclic : ∀ x, s.Below c x → ¬ Relation.TransGen s.Parent x x
  short : ∀ path : List ClassId, path.head? = some c → path.IsChain s.Parent → path.Nodup → path.length ≤ levels
  supertypes : ∀ x decl, s.Below c x → s.get? x = some decl → ∀ supertype ∈ decl.supertypes,
    supertype.raw?.isSome ∧ s.checkArity supertype = .ok () ∧ supertype.nesting ≤ 64

theorem below_of_mem_path {path : List ClassId} {c x : ClassId} (hc : path.head? = some c)
    (hpath : path.IsChain s.Parent) (hx : x ∈ path) : s.Below c x := by
  induction path generalizing c with
  | nil => simp at hx
  | cons y path ih =>
    cases hc
    rcases List.mem_cons.1 hx with rfl | hx
    · exact .refl
    · cases path with
      | nil => simp at hx
      | cons p path =>
        obtain ⟨hparent, hrest⟩ := List.isChain_cons_cons.1 hpath
        exact .head hparent (ih rfl hrest hx)

theorem Orderly.levels_pos {levels : Nat} {c : ClassId} (h : s.Orderly levels c) : 0 < levels :=
  h.short [c] rfl (by simp) (by simp)

/-- A parent has a level less above it. -/
theorem Orderly.parent {levels : Nat} {c p : ClassId} (h : s.Orderly (levels + 1) c) (hp : s.Parent c p) :
    s.Orderly levels p := by
  refine ⟨fun x hx => h.declared x (.head hp hx), fun x hx => h.acyclic x (.head hp hx), ?_,
    fun x decl hx => h.supertypes x decl (.head hp hx)⟩
  intro path hhead hpath hnodup
  have hcons : (c :: path).IsChain s.Parent := by
    cases path with
    | nil => simp at hhead
    | cons q path =>
      cases hhead
      exact List.isChain_cons_cons.2 ⟨hp, hpath⟩
  have hfresh : c ∉ path := fun hc =>
    h.acyclic c .refl (Relation.TransGen.head' hp (below_of_mem_path hhead hpath hc))
  have hlength := h.short (c :: path) rfl hcons (List.nodup_cons.2 ⟨hfresh, hnodup⟩)
  simpa using hlength

/-- The supertypes of a well-formed type are seen from it, as well-formed types of the same classes. -/
theorem WellFormed.exists_view {d : Descriptor} (hd : s.WellFormed d) (decl : ClassDecl) :
    ∃ view, s.viewOf d decl = .ok view ∧ ∀ supertype p, supertype.raw? = some p → s.WellFormed supertype →
      supertype.nesting ≤ 64 → ∃ above, seenFrom view supertype = .ok (some above) ∧ above.raw? = some p ∧
        s.WellFormed above := by
  obtain ⟨σ, hσ, hall⟩ := hd.bindingsFrom (Substitution.all_empty _)
  have hbound : ∀ supertype p, supertype.raw? = some p → s.WellFormed supertype → supertype.nesting ≤ 64 →
      ∃ above, seenFrom (some σ) supertype = .ok (some above) ∧ above.raw? = some p ∧ s.WellFormed above := by
    intro supertype p hp hwf hdepth
    refine ⟨supertype.subst σ, ?_, raw?_subst σ hp, hwf.subst hall⟩
    rw [seenFrom, Substitution.apply_eq_ok_iff.2 ⟨rfl, fun _ => hdepth⟩]
    rfl
  have hview : some <$> s.bindingsOf d = .ok (some σ) := by
    rw [bindingsOf, hσ]
    rfl
  by_cases hopen : ∃ c, d = .bare c ∧ decl.params.isEmpty = false
  · obtain ⟨c, rfl, hparams⟩ := hopen
    refine ⟨none, by simp [viewOf, hparams], fun supertype p hp hwf _ => ?_⟩
    obtain ⟨decl', hdecl'⟩ := hwf.declared hp
    exact ⟨.bare p, congrArg Except.ok (erase?_eq_some_iff.2 ⟨p, hp, rfl⟩), rfl, .bare hdecl'⟩
  · refine ⟨some σ, ?_, hbound⟩
    cases d with
    | bare c =>
      have hparams : decl.params.isEmpty = true := by simpa using hopen
      rw [viewOf, if_pos hparams, hview]
    | applied owner c args => exact hview
    | var v => exact hview
    | wildcard lower upper => exact hview

/-! ## The walk along a trail -/

/-- From the count `n`, what a walk comes to that enters the classes of a trail until it meets the target. -/
structure Follows (target : ClassId) (n : Nat) (trail : List ClassId) (x : Result (Option Descriptor × Nat)) :
    Prop where
  within : n + trail.idxOf target ≤ maxHierarchyVisits →
    ∃ found, x = .ok (found, n + trail.idxOf target) ∧ (found.isSome ↔ target ∈ trail)
  beyond : maxHierarchyVisits < n + trail.idxOf target → x = .error Profile.hierarchyWalk.tooDeep

/-- The second trail is followed from where the first one ends, unless the target is met on the first. -/
theorem Follows.append {target : ClassId} {n : Nat} {first rest : List ClassId}
    {x : Result (Option Descriptor × Nat)} {y : Nat → Result (Option Descriptor × Nat)}
    (hx : Follows target n first x) (hy : ∀ m, m ≤ maxHierarchyVisits → Follows target m rest (y m)) :
    Follows target n (first ++ rest)
      (x >>= fun found => found.1.elim (y found.2) fun e => .ok (some e, found.2)) := by
  by_cases hmem : target ∈ first
  · have hcost : (first ++ rest).idxOf target = first.idxOf target := List.idxOf_append_of_mem hmem
    constructor
    · intro hroom
      obtain ⟨found, hrun, hfound⟩ := hx.within (by omega)
      obtain ⟨e, rfl⟩ := Option.isSome_iff_exists.1 (hfound.2 hmem)
      rw [hrun, hcost]
      exact ⟨some e, rfl, by simp [hmem]⟩
    · intro hfull
      rw [hx.beyond (by omega)]
      rfl
  · have hfirst : first.idxOf target = first.length := List.idxOf_of_notMem hmem
    have hcost : (first ++ rest).idxOf target = first.length + rest.idxOf target := List.idxOf_append_of_notMem hmem
    by_cases hroom : n + first.length ≤ maxHierarchyVisits
    · obtain ⟨found, hrun, hfound⟩ := hx.within (by omega)
      have hnone : found = none := by simpa [hmem] using hfound
      have hrest := hy (n + first.length) hroom
      rw [hrun, hnone, hfirst, ok_bind]
      constructor
      · intro hleft
        obtain ⟨found', hrun', hfound'⟩ := hrest.within (by omega)
        refine ⟨found', ?_, by simpa [hmem] using hfound'⟩
        rw [hcost, ← Nat.add_assoc]
        exact hrun'
      · intro hfull
        exact hrest.beyond (by omega)
    · have hfault := hx.beyond (by omega)
      exact ⟨fun hleft => by omega, fun _ => by rw [hfault]; rfl⟩

theorem follows_findSomeM? {α : Type} {f : α → StateT Nat Result (Option Descriptor)} {trails : α → List ClassId}
    {target : ClassId} {l : List α}
    (h : ∀ a ∈ l, ∀ n, n ≤ maxHierarchyVisits → Follows target n (trails a) ((f a).run n)) {n : Nat}
    (hn : n ≤ maxHierarchyVisits) : Follows target n (l.flatMap trails) ((l.findSomeM? f).run n) := by
  induction l generalizing n with
  | nil =>
    refine ⟨fun _ => ⟨none, rfl, by simp⟩, fun hfull => ?_⟩
    rw [List.flatMap_nil, List.idxOf_nil] at hfull
    omega
  | cons a l ih =>
    obtain ⟨ha, hl⟩ := List.forall_mem_cons.1 h
    have hrun : ((a :: l).findSomeM? f).run n = (f a).run n >>= fun found =>
        found.1.elim ((l.findSomeM? f).run found.2) fun e => .ok (some e, found.2) := by
      rw [findSomeM?_cons_run]
      congr 1
      funext found
      cases found.1 <;> rfl
    rw [List.flatMap_cons, hrun]
    exact (ha n hn).append fun m hm => ih hl hm

theorem flatMap_parents (supertypes : List Descriptor) (f : ClassId → List ClassId) :
    (supertypes.filterMap (·.raw?)).flatMap f = supertypes.flatMap fun d => d.raw?.elim [] f := by
  induction supertypes with
  | nil => rfl
  | cons d supertypes ih => cases h : d.raw? <;> simp [h, ih]

/-- On an orderly hierarchy the walk follows the trail of the class that it starts from. -/
theorem Orderly.follows_walkUp {levels : Nat} {c : ClassId} (h : s.Orderly levels c) (target : ClassId)
    (path : List ClassId) {d : Descriptor} {n : Nat} (hd : s.WellFormed d) (hraw : d.raw? = some c)
    (hpath : ∀ x ∈ path, Relation.TransGen s.Parent x c) (hn : n ≤ maxHierarchyVisits) :
    Follows target n (s.trail levels c) ((s.walkUp target levels path d).run n) := by
  induction levels generalizing c path d n with
  | zero => exact absurd h.levels_pos (by omega)
  | succ levels ih =>
    obtain ⟨decl, hdecl⟩ := hd.declared hraw
    have hfresh : c ∉ path := fun hc => h.acyclic c .refl (hpath c hc)
    rw [walkUp_run, rawOf_eq_ok_iff.2 hraw, ok_bind, trail]
    by_cases hc : c = target
    · subst hc
      rw [if_pos rfl]
      refine ⟨fun _ => ⟨some d, by simp, by simp⟩, fun hfull => ?_⟩
      rw [List.idxOf_cons_self] at hfull
      omega
    · rw [if_neg hc]
      have hcost : (c :: (s.parentsOf c).flatMap (s.trail levels)).idxOf target =
          ((s.parentsOf c).flatMap (s.trail levels)).idxOf target + 1 := List.idxOf_cons_ne _ hc
      by_cases hfull : maxHierarchyVisits < n + 1
      · rw [if_pos hfull]
        exact ⟨fun hroom => by omega, fun _ => rfl⟩
      · obtain ⟨view, hview, hseen⟩ := hd.exists_view decl
        simp only [if_neg hfull, if_neg hfresh, require_eq_ok_iff.2 hdecl, ok_bind, hview]
        have hloop : Follows target (n + 1) ((s.parentsOf c).flatMap (s.trail levels))
            ((decl.supertypes.findSomeM? (s.walkInto target levels (c :: path) view)).run (n + 1)) := by
          have hparents : s.parentsOf c = decl.supertypes.filterMap (·.raw?) := by rw [parentsOf, hdecl]; rfl
          rw [hparents, flatMap_parents]
          refine follows_findSomeM? (fun supertype hmem m hm => ?_) (by omega)
          obtain ⟨hnominal, harity, hdepth⟩ := h.supertypes c decl .refl hdecl supertype hmem
          obtain ⟨p, hp⟩ := Option.isSome_iff_exists.1 hnominal
          obtain ⟨above, habove, hpabove, hwf⟩ := hseen supertype p hp (checkArity_eq_ok_iff.1 harity) hdepth
          have hparent : s.Parent c p := ⟨decl, hdecl, mem_parents.2 ⟨supertype, hmem, hp⟩⟩
          rw [walkInto_run, habove, ok_bind, hp]
          refine ih (h.parent hparent) (c :: path) hwf hpabove (fun x hx => ?_) hm
          rcases List.mem_cons.1 hx with rfl | hx
          · exact .single hparent
          · exact (hpath x hx).tail hparent
        constructor
        · intro hroom
          obtain ⟨found, hrun, hfound⟩ := hloop.within (by omega)
          refine ⟨found, ?_, by simpa [Ne.symm hc] using hfound⟩
          rw [hrun, hcost]
          congr 2
          omega
        · intro hfull
          exact hloop.beyond (by omega)

section Answers

variable {c : ClassId} (h : s.Orderly maxHierarchyDepth c) {d : Descriptor} (hd : s.WellFormed d)
  (hraw : d.raw? = some c) {target : ClassId}

include h hd hraw

theorem Orderly.exists_asSupertype (hroom : (s.trail maxHierarchyDepth c).idxOf target ≤ maxHierarchyVisits) :
    ∃ found, s.asSupertype d target = .ok found := by
  have hwalk := h.follows_walkUp target [] hd hraw (by simp) (Nat.zero_le _)
  obtain ⟨found, hrun, _⟩ := hwalk.within (by omega)
  exact ⟨found, asSupertype_eq_ok_iff.2 ⟨_, hrun⟩⟩

theorem Orderly.asSupertype_tooDeep (hfull : maxHierarchyVisits < (s.trail maxHierarchyDepth c).idxOf target) :
    s.asSupertype d target = .error Profile.hierarchyWalk.tooDeep := by
  have hwalk := h.follows_walkUp target [] hd hraw (by simp) (Nat.zero_le _)
  have hrun := hwalk.beyond (by omega)
  rw [asSupertype_eq, StateT.run'_eq, hrun]
  rfl

end Answers

/-- On an orderly hierarchy the walk to a class answers exactly if at most ten thousand classes stand before it in the
trail, and otherwise says that it went too deep. -/
theorem walk_limited_by_paths (s : Store) (c : ClassId) (h : s.Orderly 256 c) (d : Descriptor)
    (hraw : d.raw? = some c) (hd : s.checkArity d = .ok ()) :
    (∀ target, (∃ found, s.asSupertype d target = .ok found) ↔ (s.trail 256 c).idxOf target ≤ 10000) ∧
      (∀ target, 10000 < (s.trail 256 c).idxOf target →
        s.asSupertype d target = .error (.depthExceeded .hierarchyWalk 256)) ∧
      ({x | s.Below c x}.encard ≤ 10000 → (s.trail 256 c).Nodup →
        ∀ target, ∃ found, s.asSupertype d target = .ok found) := by
  have hwf := checkArity_eq_ok_iff.1 hd
  refine ⟨fun target => ⟨fun hok => ?_, h.exists_asSupertype hwf hraw⟩,
    fun target => h.asSupertype_tooDeep hwf hraw, fun hcount hnodup target => h.exists_asSupertype hwf hraw ?_⟩
  · by_contra hfull
    obtain ⟨found, hfound⟩ := hok
    rw [h.asSupertype_tooDeep hwf hraw (Nat.not_le.1 hfull)] at hfound
    cases hfound
  · have hlength : (s.trail 256 c).length ≤ 10000 := by exact_mod_cast (length_trail_le hnodup).trans hcount
    exact List.idxOf_le_length.trans hlength

/-! ## A ladder -/

section Descending

variable (hlt : ∀ x p, s.Parent x p → p.num < x.num)

include hlt

theorem num_lt_of_transGen {x y : ClassId} (h : Relation.TransGen s.Parent x y) : y.num < x.num := by
  induction h with
  | single hparent => exact hlt _ _ hparent
  | tail _ hparent ih => exact UInt32.lt_trans (hlt _ _ hparent) ih

/-- Numbers go down along a path. -/
theorem length_path_le {path : List ClassId} {c : ClassId} (hc : path.head? = some c)
    (hpath : path.IsChain s.Parent) : path.length ≤ c.num.toNat + 1 := by
  induction path generalizing c with
  | nil => simp at hc
  | cons x path ih =>
    cases hc
    cases path with
    | nil => exact Nat.le_add_left 1 _
    | cons p path =>
      obtain ⟨hparent, hrest⟩ := List.isChain_cons_cons.1 hpath
      have hlength := ih rfl hrest
      have hnum : p.num.toNat < x.num.toNat := hlt x p hparent
      rw [List.length_cons]
      omega

end Descending

theorem ProperSupertypes.contains_of_below (hs : s.ProperSupertypes) {c x : ClassId} (hc : s.contains c)
    (h : s.Below c x) : s.contains x := by
  induction h with
  | refl => exact hc
  | tail _ hparent _ =>
    obtain ⟨decl, hdecl⟩ := hs.parent_declared hparent
    simp [contains, hdecl]

/-- A store is orderly from every class on if supertypes are of classes declared before and are what they should be. -/
theorem orderly_of_all {levels : Nat} {c : ClassId}
    (hp : ∀ x ∈ s.classes.toList, ∀ p ∈ x.2.parents, p.num < x.1)
    (hs : ∀ decl ∈ s.decls, ∀ supertype ∈ decl.supertypes,
      supertype.raw?.isSome ∧ (s.checkArity supertype).isOk ∧ supertype.nesting ≤ 64)
    (hc : s.contains c) (hl : c.num.toNat < levels) : s.Orderly levels c := by
  have hlt : ∀ x p, s.Parent x p → p.num < x.num := by
    rintro x p ⟨decl, hx, hmem⟩
    exact forall_get? (P := fun x decl => ∀ p ∈ decl.parents, p.num < x.num) hp hx p hmem
  have hproper : s.ProperSupertypes :=
    ⟨fun x decl hx supertype hmem => (hs decl (mem_decls_of_get? hx) supertype hmem).1,
      fun x decl hx supertype hmem => eq_ok_of_isOk (hs decl (mem_decls_of_get? hx) supertype hmem).2.1⟩
  have hdeclared : ∀ x, s.Below c x → s.contains x := fun x => hproper.contains_of_below hc
  refine ⟨hdeclared, ?_, ?_, ?_⟩
  · exact fun x _ hcycle => UInt32.lt_irrefl _ (num_lt_of_transGen hlt hcycle)
  · exact fun path hhead hpath _ => (length_path_le hlt hhead hpath).trans hl
  · exact fun x decl _ hx supertype hmem => ⟨hproper.nominal x decl hx supertype hmem,
      hproper.arity x decl hx supertype hmem, (hs decl (mem_decls_of_get? hx) supertype hmem).2.2⟩

/-- An interface below both of the pair before it, or below the class above all if it is of the first pair. -/
def rung (i : Nat) : ClassDecl where
  kind := .interface
  name := "Rung"
  params := []
  supertypes := if i < 2 then [.bare ⟨1⟩] else [.bare ⟨(i / 2 * 2).toUInt32⟩, .bare ⟨(i / 2 * 2 + 1).toUInt32⟩]
  enclosing := none

/-- Twelve pairs of interfaces, both of each pair below both of the pair before it, a class above them all, and a class
below the last pair and a sequence. -/
def ladder : Store := .built
  ([.register ⟨.ordinary, "Top", [], [], none⟩] ++ (List.range 24).map (fun i => .register (rung i)) ++
    [.register ⟨.interface, "Sequence", [⟨"E", []⟩], [.bare ⟨1⟩], none⟩,
      .register ⟨.ordinary, "Foot", [], [.bare ⟨24⟩, .bare ⟨25⟩, .generic ⟨26⟩ [.bare ⟨1⟩]], none⟩,
      .setRoot ⟨1⟩])

theorem ladder_orderly : ladder.Orderly 256 ⟨27⟩ := by
  apply orderly_of_all <;> decide

/-- The classes that are declared first. -/
def firstClasses (n : Nat) : List ClassId := (List.range n).map fun i => ⟨(i + 1).toUInt32⟩

theorem not_mem_trail_rung {levels : Nat} {c : ClassId} (hc : c ∈ firstClasses 25) :
    ⟨26⟩ ∉ ladder.trail levels c := by
  have hclosed : ∀ x ∈ firstClasses 25, ∀ p ∈ ladder.parentsOf x, p ∈ firstClasses 25 := by decide
  have hout : ⟨26⟩ ∉ firstClasses 25 := by decide
  exact fun hmem => hout (mem_of_below hclosed hc (below_of_mem_trail hmem))

/-- The trail doubles from one pair to the next. -/
theorem length_trail_rung {k : Nat} (hk : k < 12) (levels : Nat) :
    ∀ c ∈ [⟨(k * 2 + 2).toUInt32⟩, ⟨(k * 2 + 3).toUInt32⟩],
      (ladder.trail (k + 2 + levels) c).length + 1 = 3 * 2 ^ k := by
  have hparents : ∀ k < 11, ∀ c ∈ [ClassId.mk (k * 2 + 4).toUInt32, ⟨(k * 2 + 5).toUInt32⟩],
      ladder.parentsOf c = [⟨(k * 2 + 2).toUInt32⟩, ⟨(k * 2 + 3).toUInt32⟩] := by decide
  induction k with
  | zero =>
    have hfirst : ∀ c ∈ [ClassId.mk 2, ⟨3⟩], ladder.parentsOf c = [⟨1⟩] := by decide
    have htop : ladder.parentsOf ⟨1⟩ = [] := by decide
    intro c hc
    rw [Nat.zero_add, Nat.add_comm 2 levels, trail, hfirst c hc]
    simp [trail, htop]
  | succ k ih =>
    intro c hc
    have hbelow := ih (by omega)
    have hleft := hbelow ⟨(k * 2 + 2).toUInt32⟩ (by simp)
    have hright := hbelow ⟨(k * 2 + 3).toUInt32⟩ (by simp)
    have hlevels : k + 1 + 2 + levels = (k + 2 + levels) + 1 := by omega
    have hnum : k * 2 + 4 = (k + 1) * 2 + 2 ∧ k * 2 + 5 = (k + 1) * 2 + 3 := by omega
    rw [hlevels, trail, hparents k (by omega) c (by rw [hnum.1, hnum.2]; exact hc)]
    simp only [List.flatMap_cons, List.flatMap_nil, List.append_nil, List.length_cons, List.length_append]
    rw [Nat.pow_succ]
    omega

/-- Before the sequence stand the class itself and the trails of the last pair. -/
theorem idxOf_trail_ladder : (ladder.trail 256 ⟨27⟩).idxOf ⟨26⟩ = 12287 := by
  have hparents : ladder.parentsOf ⟨27⟩ = [⟨24⟩, ⟨25⟩, ⟨26⟩] := by decide
  have hleft : (ladder.trail 255 ⟨24⟩).length + 1 = 6144 := length_trail_rung (by decide : 11 < 12) 242 _ (by decide)
  have hright : (ladder.trail 255 ⟨25⟩).length + 1 = 6144 := length_trail_rung (by decide : 11 < 12) 242 _ (by decide)
  have hleft' : ⟨26⟩ ∉ ladder.trail 255 ⟨24⟩ := not_mem_trail_rung (by decide)
  have hright' : ⟨26⟩ ∉ ladder.trail 255 ⟨25⟩ := not_mem_trail_rung (by decide)
  have hsequence : (ladder.trail 255 ⟨26⟩).idxOf ⟨26⟩ = 0 := List.idxOf_cons_self
  rw [trail, hparents, List.idxOf_cons_ne _ (by decide), List.flatMap_cons, List.idxOf_append_of_notMem hleft',
    List.flatMap_cons, List.idxOf_append_of_notMem hright', List.flatMap_cons, List.flatMap_nil, List.append_nil,
    hsequence]
  omega

/-- There are twenty-seven classes, and the search finds the sequence above the last, but the walk to it enters more
than ten thousand. -/
theorem ladder_walk : ladder.Orderly 256 ⟨27⟩ ∧ {x | ladder.Below ⟨27⟩ x}.encard ≤ 10000 ∧
    ladder.checkArity (.bare ⟨27⟩) = .ok () ∧ ladder.isSubclass ⟨27⟩ ⟨26⟩ = .ok true ∧
    ladder.asSupertype (.bare ⟨27⟩) ⟨26⟩ = .error (.depthExceeded .hierarchyWalk 256) := by
  have hclosed : ∀ x ∈ firstClasses 27, ∀ p ∈ ladder.parentsOf x, p ∈ firstClasses 27 := by decide
  have hcount : {x | ladder.Below ⟨27⟩ x}.encard ≤ 10000 :=
    (encard_below_le hclosed (by decide)).trans (by exact_mod_cast (by decide : (firstClasses 27).length ≤ 10000))
  have hlimited := walk_limited_by_paths ladder ⟨27⟩ ladder_orderly (.bare ⟨27⟩) rfl (by decide)
  refine ⟨ladder_orderly, hcount, by decide, by rfl, hlimited.2.1 ⟨26⟩ ?_⟩
  rw [idxOf_trail_ladder]
  decide

end Generics.Store
