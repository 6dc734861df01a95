import Mathlib.Data.List.TakeWhile
import Mathlib.Data.Set.Card
import Generics.Proofs.Supertypes

/-! # The search for a class above another

An answer of `Store.isSubclass` says whether the one class is above the other along declared supertypes. A yes
comes from a parent that was met. A no comes from a search that ran dry: then the visited classes are closed
under going to a parent (`Closed`), so nothing above them was missed. Each visit leaves a class less to be visited, so
the search comes to an answer if all classes above are declared and there is a visit for each of them. -/

namespace Generics.Store
set_option autoImplicit false

open Result

/-- The class itself or one above it. -/
def Below (s : Store) : ClassId → ClassId → Prop := Relation.ReflTransGen s.Parent

/-- The classes of the supertypes that a class declares, none if it is not declared. -/
def parentsOf (s : Store) (c : ClassId) : List ClassId := (s.get? c).elim [] (·.parents)

theorem parent_iff {s : Store} {c p : ClassId} : s.Parent c p ↔ p ∈ s.parentsOf c := by
  unfold Parent parentsOf
  cases s.get? c <;> simp

section Reachable

variable {s : Store} {classes : List ClassId} {c : ClassId}

theorem mem_of_below (hclosed : ∀ x ∈ classes, ∀ p ∈ s.parentsOf x, p ∈ classes) (hc : c ∈ classes) {x : ClassId}
    (h : s.Below c x) : x ∈ classes := by
  induction h with
  | refl => exact hc
  | tail _ hparent ih => exact hclosed _ ih _ (parent_iff.1 hparent)

theorem encard_below_le (hclosed : ∀ x ∈ classes, ∀ p ∈ s.parentsOf x, p ∈ classes) (hc : c ∈ classes) :
    {x | s.Below c x}.encard ≤ classes.length := by
  have hsub : {x | s.Below c x} ⊆ (classes.toFinset : Set ClassId) := by
    intro x hx
    exact List.mem_toFinset.2 (mem_of_below hclosed hc hx)
  calc {x | s.Below c x}.encard ≤ (classes.toFinset : Set ClassId).encard := Set.encard_le_encard hsub
    _ = classes.toFinset.card := Set.encard_coe_eq_coe_finsetCard _
    _ ≤ classes.length := by exact_mod_cast classes.toFinset_card_le

end Reachable

/-! ## Answers -/

/-- All that an answer of the search can come from: a queue of visited classes only, or its first other class. -/
theorem searchUp_cases {s : Store} {target : ClassId} {visits : Nat} {visited : Std.TreeSet UInt32}
    {queue : List ClassId} {b : Bool} (h : s.searchUp target visits visited queue = .ok b) :
    (b = false ∧ ∀ c ∈ queue, visited.contains c.num) ∨
      ∃ c rest left decl, queue.dropWhile (visited.contains ·.num) = c :: rest ∧ visits = left + 1 ∧
        s.get? c = some decl ∧
        ((b = true ∧ target ∈ decl.parents) ∨
          (target ∉ decl.parents ∧
            s.searchUp target left (visited.insert c.num) (rest ++ decl.parents) = .ok b)) := by
  rw [searchUp] at h
  split at h
  · rename_i hdrop
    cases h
    exact .inl ⟨rfl, List.dropWhile_eq_nil_iff.1 hdrop⟩
  · rename_i c rest hdrop
    cases visits with
    | zero => cases h
    | succ left =>
      obtain ⟨decl, hdecl, h⟩ := bind_eq_ok_iff.1 h
      refine .inr ⟨c, rest, left, decl, hdrop, rfl, require_eq_ok_iff.1 hdecl, ?_⟩
      split at h
      · rename_i hmem
        cases h
        exact .inl ⟨rfl, hmem⟩
      · rename_i hmem
        exact .inr ⟨hmem, h⟩

theorem mem_queue_iff {visited : Std.TreeSet UInt32} {queue rest : List ClassId} {c x : ClassId}
    (h : queue.dropWhile (visited.contains ·.num) = c :: rest) :
    (x ∈ queue → visited.contains x.num ∨ x = c ∨ x ∈ rest) ∧ (x = c ∨ x ∈ rest → x ∈ queue) := by
  have hsplit := List.takeWhile_append_dropWhile (p := (visited.contains ·.num)) (l := queue)
  rw [h] at hsplit
  constructor
  · intro hx
    rw [← hsplit, List.mem_append, List.mem_cons] at hx
    exact hx.imp_left fun hx => List.mem_takeWhile_imp (p := fun x : ClassId => visited.contains x.num) hx
  · intro hx
    rw [← hsplit, List.mem_append, List.mem_cons]
    exact .inr hx

/-- A yes: the target is a parent of a class that the queue leads to. -/
theorem below_of_searchUp {s : Store} {target : ClassId} {visits : Nat} {visited : Std.TreeSet UInt32}
    {queue : List ClassId} (h : s.searchUp target visits visited queue = .ok true) :
    ∃ c ∈ queue, s.Below c target := by
  induction visits generalizing visited queue with
  | zero =>
    obtain ⟨hb, -⟩ | ⟨_, _, _, _, -, hleft, -⟩ := searchUp_cases h
    · cases hb
    · cases hleft
  | succ visits ih =>
    obtain ⟨hb, -⟩ | ⟨c, rest, left, decl, hdrop, hleft, hdecl, hor⟩ := searchUp_cases h
    · cases hb
    · cases hleft
      have hc : c ∈ queue := (mem_queue_iff hdrop).2 (.inl rfl)
      rcases hor with ⟨-, hmem⟩ | ⟨-, h⟩
      · exact ⟨c, hc, .single ⟨decl, hdecl, hmem⟩⟩
      · obtain ⟨x, hx, hup⟩ := ih h
        rcases List.mem_append.1 hx with hx | hx
        · exact ⟨x, (mem_queue_iff hdrop).2 (.inr hx), hup⟩
        · exact ⟨c, hc, .head ⟨decl, hdecl, hx⟩ hup⟩

/-- What the search keeps to: a visited class has its parents among the visited classes and the queue, and the
target is none of them. -/
def Closed (s : Store) (target : ClassId) (visited : Std.TreeSet UInt32) (queue : List ClassId) : Prop :=
  ∀ c p, visited.contains c.num → s.Parent c p → p ≠ target ∧ (visited.contains p.num ∨ p ∈ queue)

theorem contains_insert {visited : Std.TreeSet UInt32} {c x : ClassId} :
    (visited.insert c.num).contains x.num = true ↔ x = c ∨ visited.contains x.num = true := by
  have hx : x = c ↔ c.num = x.num := by
    constructor
    · rintro rfl
      rfl
    · intro h
      cases x
      cases c
      cases h
      rfl
  rw [Std.TreeSet.contains_insert, Bool.or_eq_true, beq_iff_eq, Std.LawfulEqCmp.compare_eq_iff_eq, hx]

theorem Closed.visit {s : Store} {target c : ClassId} {visited : Std.TreeSet UInt32}
    {queue rest : List ClassId} {decl : ClassDecl} (h : s.Closed target visited queue)
    (hdrop : queue.dropWhile (visited.contains ·.num) = c :: rest) (hc : s.get? c = some decl)
    (ht : target ∉ decl.parents) : s.Closed target (visited.insert c.num) (rest ++ decl.parents) := by
  intro x p hx hparent
  rcases contains_insert.1 hx with rfl | hx
  · obtain ⟨decl', hdecl', hp⟩ := hparent
    rw [hc] at hdecl'
    cases hdecl'
    exact ⟨fun he => ht (he ▸ hp), .inr (List.mem_append_right _ hp)⟩
  · obtain ⟨hne, hp⟩ := h x p hx hparent
    refine ⟨hne, ?_⟩
    rcases hp with hp | hp
    · exact .inl (contains_insert.2 (.inr hp))
    · rcases (mem_queue_iff hdrop).1 hp with hp | hp | hp
      · exact .inl (contains_insert.2 (.inr hp))
      · exact .inl (contains_insert.2 (.inl hp))
      · exact .inr (List.mem_append_left _ hp)

theorem Closed.dry {s : Store} {target : ClassId} {visited : Std.TreeSet UInt32} {queue : List ClassId}
    (h : s.Closed target visited queue) (hq : ∀ c ∈ queue, visited.contains c.num) :
    s.Closed target visited [] := by
  intro c p hc hp
  obtain ⟨hne, hor⟩ := h c p hc hp
  exact ⟨hne, .inl (hor.elim id (hq p))⟩

/-- A no: the visited classes and those of the queue end up in a set that is closed and leaves the target out. -/
theorem exists_closed_of_searchUp {s : Store} {target : ClassId} {visits : Nat}
    {visited : Std.TreeSet UInt32} {queue : List ClassId}
    (h : s.searchUp target visits visited queue = .ok false) (hclosed : s.Closed target visited queue) :
    ∃ all : Std.TreeSet UInt32, s.Closed target all [] ∧
      ∀ c : ClassId, visited.contains c.num ∨ c ∈ queue → all.contains c.num := by
  induction visits generalizing visited queue with
  | zero =>
    obtain ⟨-, hq⟩ | ⟨_, _, _, _, -, hleft, -⟩ := searchUp_cases h
    · exact ⟨visited, hclosed.dry hq, fun c hc => hc.elim id (hq c)⟩
    · cases hleft
  | succ visits ih =>
    obtain ⟨-, hq⟩ | ⟨c, rest, left, decl, hdrop, hleft, hdecl, hor⟩ := searchUp_cases h
    · exact ⟨visited, hclosed.dry hq, fun c hc => hc.elim id (hq c)⟩
    · cases hleft
      rcases hor with ⟨hb, -⟩ | ⟨ht, h⟩
      · cases hb
      · obtain ⟨all, hall, hmem⟩ := ih h (hclosed.visit hdrop hdecl ht)
        refine ⟨all, hall, fun x hx => ?_⟩
        rcases hx with hx | hx
        · exact hmem x (.inl (contains_insert.2 (.inr hx)))
        · rcases (mem_queue_iff hdrop).1 hx with hx | hx | hx
          · exact hmem x (.inl (contains_insert.2 (.inr hx)))
          · exact hmem x (.inl (contains_insert.2 (.inl hx)))
          · exact hmem x (.inr (List.mem_append_left _ hx))

theorem Closed.below {s : Store} {target c p : ClassId} {all : Std.TreeSet UInt32}
    (h : s.Closed target all []) (hc : all.contains c.num) (hne : c ≠ target) (hup : s.Below c p) :
    all.contains p.num ∧ p ≠ target := by
  induction hup with
  | refl => exact ⟨hc, hne⟩
  | @tail p q _ hparent ih =>
    obtain ⟨hq, hor⟩ := h p q ih.1 hparent
    exact ⟨hor.elim id (by simp), hq⟩

theorem isSubclass_eq_ok {s : Store} {sub sup : ClassId} {b : Bool} (h : s.isSubclass sub sup = .ok b) :
    b = true ↔ s.Below sub sup := by
  unfold isSubclass at h
  split at h
  · rename_i heq
    cases h
    subst heq
    exact ⟨fun _ => .refl, fun _ => rfl⟩
  · rename_i hne
    cases b with
    | true =>
      obtain ⟨c, hc, hup⟩ := below_of_searchUp h
      rw [List.mem_singleton] at hc
      subst hc
      exact ⟨fun _ => hup, fun _ => rfl⟩
    | false =>
      have hempty : s.Closed sup ∅ [sub] := by
        intro c p hc
        simp at hc
      obtain ⟨all, hall, hmem⟩ := exists_closed_of_searchUp h hempty
      have hsub := hmem sub (.inr List.mem_cons_self)
      exact ⟨fun h => (by cases h), fun hup => absurd rfl (hall.below hsub hne hup).2⟩

/-! ## Enough visits -/

/-- The classes among these that are not visited yet. -/
def unvisited (classes : Finset ClassId) (visited : Std.TreeSet UInt32) : Finset ClassId :=
  classes.filter fun c => ¬ visited.contains c.num

theorem card_unvisited_insert {classes : Finset ClassId} {visited : Std.TreeSet UInt32} {c : ClassId}
    (hc : c ∈ unvisited classes visited) :
    (unvisited classes (visited.insert c.num)).card < (unvisited classes visited).card := by
  refine Finset.card_lt_card (Finset.ssubset_iff_of_subset ?_ |>.2 ⟨c, hc, ?_⟩)
  · intro x hx
    obtain ⟨hmem, hnew⟩ := Finset.mem_filter.1 hx
    exact Finset.mem_filter.2 ⟨hmem, fun hold => hnew (contains_insert.2 (.inr hold))⟩
  · intro hnew
    exact (Finset.mem_filter.1 hnew).2 (contains_insert.2 (.inl rfl))

theorem mem_unvisited_of_dropWhile {classes : Finset ClassId} {visited : Std.TreeSet UInt32}
    {queue rest : List ClassId} {c : ClassId} (hqueue : ∀ x ∈ queue, x ∈ classes)
    (h : queue.dropWhile (visited.contains ·.num) = c :: rest) : c ∈ unvisited classes visited := by
  refine Finset.mem_filter.2 ⟨hqueue c ((mem_queue_iff h).2 (.inl rfl)), ?_⟩
  have hhead := List.head?_dropWhile_not (fun x : ClassId => visited.contains x.num) queue
  rw [h] at hhead
  exact Bool.eq_false_iff.1 hhead

/-- Among declared classes that are closed under going to a parent, the search comes to an answer if it has a visit for
each class that is left. -/
theorem exists_searchUp_eq_ok {s : Store} {target : ClassId} (classes : Finset ClassId) {visits : Nat}
    {visited : Std.TreeSet UInt32} {queue : List ClassId}
    (hclasses : ∀ c ∈ classes, ∃ decl, s.get? c = some decl ∧ ∀ p ∈ decl.parents, p ∈ classes)
    (hqueue : ∀ c ∈ queue, c ∈ classes) (hvisits : (unvisited classes visited).card ≤ visits) :
    ∃ answer, s.searchUp target visits visited queue = .ok answer := by
  induction visits generalizing visited queue with
  | zero =>
    rw [searchUp]
    split
    · exact ⟨false, rfl⟩
    · rename_i c rest hdrop
      have hpos := Finset.card_pos.2 ⟨c, mem_unvisited_of_dropWhile hqueue hdrop⟩
      omega
  | succ visits ih =>
    rw [searchUp]
    split
    · exact ⟨false, rfl⟩
    · rename_i c rest hdrop
      have hc := mem_unvisited_of_dropWhile hqueue hdrop
      obtain ⟨decl, hdecl, hparents⟩ := hclasses c (Finset.mem_filter.1 hc).1
      dsimp only
      rw [require_eq_ok_iff.2 hdecl, ok_bind]
      split
      · exact ⟨true, rfl⟩
      · have hfewer := card_unvisited_insert hc
        refine ih (fun x hx => ?_) (by omega)
        rcases List.mem_append.1 hx with hx | hx
        · exact hqueue x ((mem_queue_iff hdrop).2 (.inr hx))
        · exact hparents x hx

/-- The search comes to an answer if the class and all above it are declared and there are not too many of them. -/
theorem exists_isSubclass_eq_ok {s : Store} {sub : ClassId} (hdeclared : ∀ c, s.Below sub c → s.contains c)
    (hcount : {c | s.Below sub c}.encard ≤ maxHierarchyVisits) (sup : ClassId) :
    ∃ answer, s.isSubclass sub sup = .ok answer := by
  unfold isSubclass
  split
  · exact ⟨true, rfl⟩
  · have hfinite : {c | s.Below sub c}.Finite := Set.finite_of_encard_le_coe hcount
    have hmem : ∀ c, c ∈ hfinite.toFinset ↔ s.Below sub c := fun c => hfinite.mem_toFinset
    refine exists_searchUp_eq_ok hfinite.toFinset ?_ ?_ ?_
    · intro c hc
      have hup := (hmem c).1 hc
      obtain ⟨decl, hdecl⟩ := Option.isSome_iff_exists.1 (hdeclared c hup)
      exact ⟨decl, hdecl, fun p hp => (hmem p).2 (hup.tail ⟨decl, hdecl, hp⟩)⟩
    · intro c hc
      rw [List.mem_singleton.1 hc]
      exact (hmem sub).2 .refl
    · refine (Finset.card_filter_le _ _).trans ?_
      rw [hfinite.encard_eq_coe_toFinset_card] at hcount
      exact_mod_cast hcount

/-- An answer says whether the one class is above the other, and there is one if all classes above are declared and at
most ten thousand. Answers can be chained. -/
theorem isSubclass_decides_reachability (s : Store) (sub sup : ClassId) :
    (∀ answer, s.isSubclass sub sup = .ok answer → (answer = true ↔ s.Below sub sup)) ∧
      ((∀ c, s.Below sub c → s.contains c) →
        {c | s.Below sub c}.encard ≤ 10000 → ∃ answer, s.isSubclass sub sup = .ok answer) ∧
      s.isSubclass sub sub = .ok true ∧
      ∀ mid answer, s.isSubclass sub mid = .ok true → s.isSubclass mid sup = .ok true →
        s.isSubclass sub sup = .ok answer → answer = true := by
  refine ⟨fun answer => isSubclass_eq_ok, fun hdeclared hcount => ?_, ?_, ?_⟩
  · exact exists_isSubclass_eq_ok hdeclared (by exact_mod_cast hcount) sup
  · rw [isSubclass, if_pos rfl]
  · intro mid answer hmid hsup hanswer
    have hup : s.Below sub mid := (isSubclass_eq_ok hmid).1 rfl
    exact (isSubclass_eq_ok hanswer).2 (hup.trans ((isSubclass_eq_ok hsup).1 rfl))

/-- A class below itself on two ways, with a placeholder and an undeclared class among the supertypes. -/
def tangle : Store := .built
  [.register ⟨.ordinary, "Top", [], [], none⟩,
    .register ⟨.interface, "Left", [⟨"T", []⟩], [.bare ⟨1⟩, .var ⟨.ofClass ⟨2⟩, "T"⟩], none⟩,
    .register ⟨.interface, "Right", [], [.unbounded, .bare ⟨1⟩, .bare ⟨4⟩], none⟩,
    .register ⟨.ordinary, "Bottom", [], [.generic ⟨2⟩ [.bare ⟨3⟩], .bare ⟨3⟩], none⟩,
    .register ⟨.ordinary, "Stray", [], [.bare ⟨4⟩, .bare ⟨9⟩], none⟩]

theorem tangle_isSubclass :
    (tangle.isSubclass ⟨5⟩ ⟨9⟩ = .ok true ∧ tangle.Below ⟨5⟩ ⟨9⟩) ∧
      (∃ fault, tangle.isSubclass ⟨5⟩ ⟨8⟩ = .error fault) ∧
      (∃ answer, tangle.isSubclass ⟨4⟩ ⟨5⟩ = .ok answer) ∧ ¬ tangle.Below ⟨4⟩ ⟨5⟩ ∧
      ∀ answer, tangle.isSubclass ⟨3⟩ ⟨2⟩ = .ok answer → answer = true := by
  have hclosed : ∀ x ∈ [⟨1⟩, ⟨2⟩, ⟨3⟩, ⟨4⟩], ∀ p ∈ tangle.parentsOf x, p ∈ [⟨1⟩, ⟨2⟩, ⟨3⟩, ⟨4⟩] := by decide
  have hdeclared : ∀ x ∈ [⟨1⟩, ⟨2⟩, ⟨3⟩, ⟨4⟩], tangle.contains x := by decide
  have hyes : tangle.isSubclass ⟨5⟩ ⟨9⟩ = .ok true := by rfl
  have hno : tangle.isSubclass ⟨4⟩ ⟨5⟩ = .ok false := by rfl
  refine ⟨⟨hyes, ((isSubclass_decides_reachability tangle ⟨5⟩ ⟨9⟩).1 true hyes).1 rfl⟩,
    ⟨.unknownClass ⟨9⟩, by rfl⟩, ?_, ?_, ?_⟩
  · refine (isSubclass_decides_reachability tangle ⟨4⟩ ⟨5⟩).2.1 (fun c hc => ?_) ?_
    · exact hdeclared c (mem_of_below hclosed (by decide) hc)
    · exact (encard_below_le hclosed (by decide)).trans (by exact_mod_cast (by decide : 4 ≤ 10000))
  · intro hup
    cases ((isSubclass_decides_reachability tangle ⟨4⟩ ⟨5⟩).1 false hno).2 hup
  · exact fun answer => (isSubclass_decides_reachability tangle ⟨3⟩ ⟨2⟩).2.2.2 ⟨4⟩ answer (by rfl) (by rfl)

end Generics.Store
