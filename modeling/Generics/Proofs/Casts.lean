import Generics.Key.Box
import Generics.Proofs.Decision
import Generics.Proofs.Faults
import Generics.Proofs.Keys
import Generics.Proofs.Testing

/-! # Casts compose

What a key accepts, and what that accepts in turn, the key does not refuse, as long as the keys are regular and
the one in the middle is free of capture. So a value that went from box to box by casts could have been cast to
its last key at once, or at least was not refused.

None of the conditions can be left out: `shapes_launders` has, for each of them, keys of a coherent store whose
answers do not compose. -/

namespace Generics
set_option autoImplicit false

open Result

/-! ## Keys -/

namespace Key

/-- A key made in the store, without type variables, whose type is regular. -/
structure RegularIn (s : Store) (k : Key) : Prop where
  made : k.MadeIn s
  resolved : k.isPartial = false
  regular : s.Regular k.descriptor

theorem RegularIn.clean {s : Store} {k : Key} (h : k.RegularIn s) : s.Clean k.descriptor :=
  ⟨h.made.wellFormed, h.made.closed h.resolved, h.regular⟩

theorem RegularIn.of_tested {s : Store} {k : Key} (depth : Nat) (h : Key.of s k.descriptor = .ok k)
    (ht : s.tested s.isTidy depth k.descriptor) : k.RegularIn s := by
  obtain ⟨_, _, c, _, hk⟩ := freeze_eq_ok_iff.1 h
  exact ⟨⟨k.descriptor, false, h⟩, by rw [hk]; rfl, Store.regular_of_tested depth ht⟩

theorem decides_accepts {s : Store} (hs : s.Coherent) {a b : Key} (ha : a.RegularIn s) (hb : b.RegularIn s) :
    Decides (s.Covers a.descriptor b.descriptor) (a.accepts s b) := by
  unfold accepts
  split
  · rename_i heq
    exact decides_ok ⟨fun _ => Store.covers_of_beq heq, fun _ => rfl⟩
  · exact hs.decides_isAssignable ha.clean hb.clean

end Key

/-! ## Boxes -/

namespace Box

variable {α : Type} {s : Store}

theorem cast_eq_ok_iff {b b' : Box α} {k : Key} :
    b.cast s k = .ok b' ↔ b' = ⟨k, b.value⟩ ∧ k.accepts s b.key = .ok true := by
  rw [cast, valueAs]
  cases haccepts : k.accepts s b.key with
  | error fault => exact ⟨fun h => (by cases h), fun h => (by cases h.2)⟩
  | ok accepted =>
    cases accepted with
    | false => exact ⟨fun h => (by cases h), fun h => (by cases h.2)⟩
    | true => exact ⟨fun h => ⟨(Except.ok.inj h).symm, rfl⟩, fun h => (by rw [h.1]; rfl)⟩

theorem cast_eq_ok {b b' : Box α} {k : Key} (h : b.cast s k = .ok b') :
    b'.key = k ∧ k.accepts s b.key = .ok true := by
  obtain ⟨rfl, haccepts⟩ := cast_eq_ok_iff.1 h
  exact ⟨rfl, haccepts⟩

/-- A cast is refused because the key says no, and for no other reason. -/
theorem accepts_of_cast_refused {b : Box α} {k : Key} {required actual : String}
    (h : b.cast s k = .error (.castRefused required actual)) : k.accepts s b.key = .ok false := by
  have hfault : FailsAsCheck (k.accepts s b.key) := by
    unfold Key.accepts
    split
    · exact trivial
    · exact s.failsAsCheck_isAssignable _ _
  rw [cast, valueAs] at h
  cases haccepts : k.accepts s b.key with
  | error fault =>
    rw [haccepts] at h hfault
    cases h
    cases hfault
  | ok accepted =>
    rw [haccepts] at h
    cases accepted with
    | false => rfl
    | true => cases h

/-- The keys along a chain of casts cover the one that it started from. -/
theorem covers_of_casts (hs : s.Coherent) {first : Key} {b last : Box α} {keys : List Key}
    (hfirst : first.RegularIn s) (hkeys : ∀ k ∈ b.key :: keys, k.RegularIn s)
    (hfree : ∀ k ∈ (b.key :: keys).dropLast, s.CaptureFree k.descriptor)
    (hcovers : s.Covers b.key.descriptor first.descriptor)
    (h : keys.foldlM (fun b k => b.cast s k) b = .ok last) :
    last.key.RegularIn s ∧ s.Covers last.key.descriptor first.descriptor := by
  induction keys generalizing b with
  | nil =>
    cases h
    exact ⟨hkeys _ List.mem_cons_self, hcovers⟩
  | cons k keys ih =>
    rw [List.foldlM_cons, bind_eq_ok_iff] at h
    obtain ⟨b', hcast, h⟩ := h
    obtain ⟨rfl, haccepts⟩ := cast_eq_ok hcast
    obtain ⟨hb, hrest⟩ := List.forall_mem_cons.1 hkeys
    have hb' := hrest _ List.mem_cons_self
    have hstep := (Key.decides_accepts hs hb' hb true haccepts).1 rfl
    rw [List.dropLast_cons_cons] at hfree
    obtain ⟨hbfree, hrestfree⟩ := List.forall_mem_cons.1 hfree
    exact ih hrest hrestfree (hstep.trans hs hb'.clean hb.clean hbfree hfirst.clean hcovers) h

end Box

/-- Answers of regular keys compose, and so do casts. -/
theorem accepts_trans_and_casts_compose (s : Store) (hs : s.Coherent) :
    (∀ a b c : Key, a.RegularIn s → b.RegularIn s → c.RegularIn s → s.CaptureFree b.descriptor →
      a.accepts s b = .ok true → b.accepts s c = .ok true → a.accepts s c ≠ .ok false) ∧
    ∀ (α : Type) (box last : Box α) (keys : List Key), (∀ k ∈ box.key :: keys, k.RegularIn s) →
      (∀ k ∈ keys.dropLast, s.CaptureFree k.descriptor) →
      keys.foldlM (fun b k => b.cast s k) box = .ok last →
      ∀ required actual, box.cast s last.key ≠ .error (.castRefused required actual) := by
  constructor
  · intro a b c ha hb hc hfree hab hbc hac
    have hcovers := ((Key.decides_accepts hs ha hb true hab).1 rfl).trans hs ha.clean hb.clean hfree hc.clean
      ((Key.decides_accepts hs hb hc true hbc).1 rfl)
    cases (Key.decides_accepts hs ha hc false hac).2 hcovers
  · intro α box last keys hkeys hfree h required actual hrefused
    have hno := Box.accepts_of_cast_refused hrefused
    have hbox := hkeys _ List.mem_cons_self
    -- the first key is in the middle of nothing, and so may capture
    have hlast : last.key.RegularIn s ∧ s.Covers last.key.descriptor box.key.descriptor := by
      cases keys with
      | nil =>
        cases h
        exact ⟨hbox, Store.covers_of_beq BEq.rfl⟩
      | cons k keys =>
        rw [List.foldlM_cons, bind_eq_ok_iff] at h
        obtain ⟨b', hcast, h⟩ := h
        obtain ⟨rfl, haccepts⟩ := Box.cast_eq_ok hcast
        obtain ⟨_, hrest⟩ := List.forall_mem_cons.1 hkeys
        have hcovers := (Key.decides_accepts hs (hrest _ List.mem_cons_self) hbox true haccepts).1 rfl
        exact Box.covers_of_casts hs hbox hrest hfree hcovers h
    cases (Key.decides_accepts hs hlast.1 hbox false hno).2 hlast.2

/-! ## Samples -/

/-- Numbers and texts, sequences, a batch that is a sequence of sequences, a box for numbers only, and a class inside
that of sequences. -/
def shapes : Store := .built
  [.register ⟨.ordinary, "Object", [], [], none⟩,
    .register ⟨.ordinary, "Number", [], [.bare ⟨1⟩], none⟩,
    .register ⟨.ordinary, "Integer", [], [.bare ⟨2⟩], none⟩,
    .register ⟨.ordinary, "Text", [], [.bare ⟨1⟩], none⟩,
    .register ⟨.interface, "Sequence", [⟨"T", []⟩], [.bare ⟨1⟩], none⟩,
    .register ⟨.ordinary, "Batch", [⟨"T", []⟩], [.generic ⟨5⟩ [.generic ⟨5⟩ [.var ⟨.ofClass ⟨6⟩, "T"⟩]]], none⟩,
    .register ⟨.ordinary, "NumberBox", [⟨"T", [.bare ⟨2⟩]⟩], [.generic ⟨5⟩ [.var ⟨.ofClass ⟨7⟩, "T"⟩]], none⟩,
    .register ⟨.ordinary, "Inner", [⟨"T", []⟩], [.generic ⟨5⟩ [.var ⟨.ofClass ⟨8⟩, "T"⟩]], some ⟨5⟩⟩,
    .setRoot ⟨1⟩]

theorem shapes_coherent : shapes.Coherent := Store.coherent_of_isTree (by decide) rfl

def shapesKey (c : ClassId) (args : List Descriptor) : Key :=
  ⟨.generic c args, c, shapes.text (.generic c args), false⟩

/-- `NumberBox<Integer>` passes for `NumberBox<? extends Number>` and that for `Sequence<? extends Number>`. -/
theorem shapes_composes :
    (shapesKey ⟨5⟩ [.extending (.bare ⟨2⟩)]).accepts shapes (shapesKey ⟨7⟩ [.bare ⟨3⟩]) ≠ .ok false ∧
      ∀ required actual, (Box.mk (shapesKey ⟨7⟩ [.bare ⟨3⟩]) 7).cast shapes
        (shapesKey ⟨5⟩ [.extending (.bare ⟨2⟩)]) ≠ .error (.castRefused required actual) := by
  have ha : (shapesKey ⟨5⟩ [.extending (.bare ⟨2⟩)]).RegularIn shapes :=
    .of_tested 5 rfl (by decide)
  have hb : (shapesKey ⟨7⟩ [.extending (.bare ⟨2⟩)]).RegularIn shapes :=
    .of_tested 5 rfl (by decide)
  have hc : (shapesKey ⟨7⟩ [.bare ⟨3⟩]).RegularIn shapes :=
    .of_tested 5 rfl (by decide)
  have hfree : shapes.CaptureFree (shapesKey ⟨7⟩ [.extending (.bare ⟨2⟩)]).descriptor :=
    Store.captureFree_of_tested 5 (by decide)
  obtain ⟨htrans, hcasts⟩ := accepts_trans_and_casts_compose shapes shapes_coherent
  refine ⟨htrans _ _ _ ha hb hc hfree (by rfl) (by rfl), ?_⟩
  refine hcasts Nat ⟨_, 7⟩ ⟨_, 7⟩ [shapesKey ⟨7⟩ [.extending (.bare ⟨2⟩)], shapesKey ⟨5⟩ [.extending (.bare ⟨2⟩)]]
    ?_ ?_ (by rfl)
  · simp only [List.forall_mem_cons]
    exact ⟨hc, hb, ha, by simp⟩
  · simp only [List.dropLast, List.forall_mem_cons]
    exact ⟨hfree, by simp⟩

/-- Keys of the store of which each accepts the next and the first does not accept the last. -/
def Store.Launders (s : Store) (a b c : Descriptor) : Prop :=
  ∃ ka kb kc, Key.of s a = .ok ka ∧ Key.of s b = .ok kb ∧ Key.of s c = .ok kc ∧
    ka.accepts s kb = .ok true ∧ kb.accepts s kc = .ok true ∧ ka.accepts s kc = .ok false

/-- Answers do not compose where the key in the middle captures a wildcard, bounds are implied on one side only, an
owner is missing or binds anew, or a bound is a wildcard. -/
theorem shapes_launders :
    shapes.Coherent ∧
      shapes.Launders (.generic ⟨5⟩ [.generic ⟨5⟩ [.extending (.bare ⟨2⟩)]]) (.generic ⟨6⟩ [.extending (.bare ⟨2⟩)])
        (.generic ⟨6⟩ [.bare ⟨3⟩]) ∧
      shapes.Launders (.generic ⟨7⟩ [.extending (.bare ⟨2⟩)]) (.generic ⟨7⟩ [.unbounded]) (.generic ⟨7⟩ [.bare ⟨4⟩]) ∧
      shapes.Launders (.applied (some (.generic ⟨5⟩ [.bare ⟨2⟩])) ⟨8⟩ [.bare ⟨3⟩]) (.generic ⟨8⟩ [.bare ⟨3⟩])
        (.applied (some (.generic ⟨5⟩ [.bare ⟨4⟩])) ⟨8⟩ [.bare ⟨3⟩]) ∧
      shapes.Launders (.generic ⟨5⟩ [.extending (.superOf (.bare ⟨3⟩))]) (.generic ⟨5⟩ [.extending (.bare ⟨2⟩)])
        (.generic ⟨5⟩ [.extending (.extending (.bare ⟨2⟩))]) ∧
      shapes.Launders (.generic ⟨5⟩ [.bare ⟨2⟩]) (.applied (some (.bare ⟨8⟩)) ⟨8⟩ [.bare ⟨2⟩])
        (.applied (some (.applied (some (.bare ⟨8⟩)) ⟨8⟩ [.bare ⟨4⟩])) ⟨8⟩ [.bare ⟨2⟩]) :=
  ⟨shapes_coherent, ⟨_, _, _, rfl, rfl, rfl, by rfl, by rfl, by rfl⟩, ⟨_, _, _, rfl, rfl, rfl, by rfl, by rfl, by rfl⟩,
    ⟨_, _, _, rfl, rfl, rfl, by rfl, by rfl, by rfl⟩, ⟨_, _, _, rfl, rfl, rfl, by rfl, by rfl, by rfl⟩,
    ⟨_, _, _, rfl, rfl, rfl, by rfl, by rfl, by rfl⟩⟩

end Generics
