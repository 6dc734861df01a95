import Generics.Proofs.Histories
import Generics.Proofs.Interning
import Generics.Proofs.Keys

/-! # Keys stay valid

A key carries what was computed when it was made: that its type is well-formed, its class and its text. All of this
rests on the names and on the numbers of parameters of the classes in it, which no operation changes
(`Store.extends_change`). So a key can be made again at any later time, and is the same. -/

namespace Generics
set_option autoImplicit false

namespace Store

variable {s s' : Store} {decl : ClassDecl}

/-! ## Stores that grew -/

/-- Every class is declared in the second store too, under its name and with parameters of the same names. -/
def Extends (s s' : Store) : Prop :=
  ∀ c decl, s.get? c = some decl → ∃ decl', s'.get? c = some decl' ∧ decl'.name = decl.name ∧
    decl'.params.map (·.name) = decl.params.map (·.name)

theorem Extends.refl (s : Store) : s.Extends s := fun _ decl h => ⟨decl, h, rfl, rfl⟩

theorem Extends.trans {s'' : Store} (h : s.Extends s') (h' : s'.Extends s'') : s.Extends s'' := by
  intro c decl hc
  obtain ⟨decl', hc', hname, hparams⟩ := h c decl hc
  obtain ⟨decl'', hc'', hname', hparams'⟩ := h' c decl' hc'
  exact ⟨decl'', hc'', hname'.trans hname, hparams'.trans hparams⟩

theorem names_setBoundsIn (params : List TypeParam) (name : String) (bounds : List Descriptor) :
    (setBoundsIn params name bounds).map (·.name) = params.map (·.name) := by
  induction params with
  | nil => rfl
  | cons p params ih =>
    rw [setBoundsIn]
    split
    · rfl
    · rw [List.map_cons, List.map_cons, ih]

theorem extends_update (s : Store) (c : ClassId) {f : ClassDecl → ClassDecl}
    (hf : ∀ decl, (f decl).name = decl.name ∧ (f decl).params.map (·.name) = decl.params.map (·.name)) :
    s.Extends (s.update c f).2 := by
  intro x decl hx
  rw [get?_update]
  split
  · rename_i heq
    subst heq
    exact ⟨f decl, by rw [hx]; rfl, hf decl⟩
  · exact ⟨decl, hx, rfl, rfl⟩

theorem get?_register_of_get? (hnew : ¬ s.contains s.nextId) {c : ClassId} {old : ClassDecl}
    (hc : s.get? c = some old) : (s.register decl).2.get? c = some old := by
  have hother : c ≠ s.nextId := by
    rintro rfl
    exact hnew (by simp [contains, hc])
  rw [get?_register, if_neg hother, hc]

theorem extends_change (hnew : ¬ s.contains s.nextId) (ch : Change) : s.Extends (s.change ch) := by
  cases ch with
  | register decl => exact fun _ old hc => ⟨old, get?_register_of_get? hnew hc, rfl, rfl⟩
  | setSupertypes c supertypes => exact s.extends_update c fun _ => ⟨rfl, rfl⟩
  | setBounds c param bounds =>
    simp only [change, setBounds]
    split
    · exact s.extends_update c fun decl => ⟨rfl, names_setBoundsIn decl.params param bounds⟩
    · exact .refl s
  | setRoot c =>
    simp only [change, setRoot]
    split <;> exact .refl s
  | setEnclosing c enclosing => exact s.extends_update c fun _ => ⟨rfl, rfl⟩
  | setMethodParams c method params => exact .refl s

/-! ## What stays true of a type -/

theorem Extends.wellFormed (h : s.Extends s') {d : Descriptor} (hd : s.WellFormed d) : s'.WellFormed d := by
  induction hd with
  | bare hc =>
    obtain ⟨decl', hc', _⟩ := h _ _ hc
    exact .bare hc'
  | applied hc hl _ _ ho ha =>
    obtain ⟨decl', hc', _, hparams⟩ := h _ _ hc
    have harity := congrArg List.length hparams
    rw [List.length_map, List.length_map] at harity
    exact .applied hc' (harity.trans hl) ho ha
  | var v => exact .var v
  | wildcard _ _ hl hu => exact .wildcard hl hu

theorem Extends.className (h : s.Extends s') {c : ClassId} {decl : ClassDecl} (hc : s.get? c = some decl) :
    s'.className c = s.className c := by
  obtain ⟨decl', hc', hname, _⟩ := h c decl hc
  rw [Store.className, Store.className, hc, hc']
  exact hname

theorem text_applied_congr {owner : Option Descriptor} {c : ClassId} {args : List Descriptor}
    (hc : s'.className c = s.className c) (ho : ∀ o, owner = some o → s'.text o = s.text o)
    (ha : ∀ a ∈ args, s'.text a = s.text a) : s'.text (.applied owner c args) = s.text (.applied owner c args) := by
  have howner : s'.ownerText owner = s.ownerText owner := by
    cases owner with
    | none => rfl
    | some o => rw [ownerText, ownerText, ho o rfl]
  have hargs : s'.texts args = s.texts args := by
    rw [texts_eq, texts_eq]
    exact List.map_congr_left ha
  rw [Store.text, Store.text, howner, hargs, hc]

theorem text_wildcard_congr {lower upper : List Descriptor} (hl : ∀ l ∈ lower, s'.text l = s.text l)
    (hu : ∀ u ∈ upper, s'.text u = s.text u) : s'.text (.wildcard lower upper) = s.text (.wildcard lower upper) := by
  rw [Store.text, Store.text, texts_eq, texts_eq, texts_eq, texts_eq, List.map_congr_left hl, List.map_congr_left hu]

theorem Extends.text (h : s.Extends s') {d : Descriptor} (hd : s.WellFormed d) : s'.text d = s.text d := by
  induction hd with
  | bare hc => exact h.className hc
  | applied hc _ _ _ ho ha => exact text_applied_congr (h.className hc) ho ha
  | var v => rfl
  | wildcard _ _ hl hu => exact text_wildcard_congr hl hu

end Store

theorem Key.freeze_of_extends {s s' : Store} (h : s.Extends s') {d : Descriptor} {allowVars : Bool} {k : Key}
    (hk : Key.freeze s d allowVars = .ok k) : Key.freeze s' d allowVars = .ok k := by
  obtain ⟨hwf, hresolved, c, hraw, rfl⟩ := freeze_eq_ok_iff.1 hk
  exact freeze_eq_ok_iff.2 ⟨h.wellFormed hwf, hresolved, c, hraw, by rw [h.text hwf]⟩

/-! ## A store with its names -/

/-- A store and the interner for the names used in it. -/
structure Workspace (shardOf : String → Fin 16) where
  store : Store
  names : Interner shardOf

/-- One operation on a store or on its names. To declare a class is to intern its names and to register it. -/
inductive Operation
  | change (ch : Change)
  | declare (kind : ClassKind) (name : String) (params : List String)
  | intern (text : String)

namespace Workspace

variable {shardOf : String → Fin 16}

def new : Workspace shardOf := ⟨.empty, .new⟩

def step (w : Workspace shardOf) : Operation → Workspace shardOf
  | .change ch => { w with store := w.store.change ch }
  | .declare kind name params =>
    ⟨(w.store.declare kind name params).2, w.names.internAll (name :: params)⟩
  | .intern text => { w with names := (w.names.intern text).2 }

def after (w : Workspace shardOf) (ops : List Operation) : Workspace shardOf := ops.foldl step w

/-- Nothing is lost from the store, nor from the names. -/
structure Extends (w w' : Workspace shardOf) : Prop where
  store : w.store.Extends w'.store
  names : w.names.Extends w'.names

theorem size_le_step (w : Workspace shardOf) (op : Operation) : w.store.size ≤ (w.step op).store.size := by
  cases op with
  | change ch => exact w.store.size_le_change ch
  | declare kind name params => exact w.store.size_le_change (.register _)
  | intern text => exact Nat.le_refl _

theorem size_le_after (w : Workspace shardOf) (ops : List Operation) : w.store.size ≤ (w.after ops).store.size := by
  induction ops generalizing w with
  | nil => exact Nat.le_refl _
  | cons op ops ih => exact Nat.le_trans (w.size_le_step op) (ih (w.step op))

theorem numbered_step {w : Workspace shardOf} (h : w.store.Numbered) (op : Operation)
    (hsize : (w.step op).store.size < 4294967296) : (w.step op).store.Numbered := by
  cases op with
  | change ch => exact h.change ch hsize
  | declare kind name params => exact h.change (.register _) hsize
  | intern text => exact h

theorem numbered_after {w : Workspace shardOf} (h : w.store.Numbered) (ops : List Operation)
    (hsize : (w.after ops).store.size < 4294967296) : (w.after ops).store.Numbered := by
  induction ops generalizing w with
  | nil => exact h
  | cons op ops ih =>
    have hstep := Nat.lt_of_le_of_lt ((w.step op).size_le_after ops) hsize
    exact ih (numbered_step h op hstep) hsize

theorem extends_step {w : Workspace shardOf} (h : w.store.Numbered) (op : Operation)
    (hsize : (w.step op).store.size < 4294967296) : w.Extends (w.step op) := by
  have hnew := h.not_contains_nextId (Nat.lt_of_le_of_lt (w.size_le_step op) hsize)
  cases op with
  | change ch => exact ⟨Store.extends_change hnew ch, .refl _⟩
  | declare kind name params => exact ⟨Store.extends_change hnew (.register _), w.names.extends_internAll _⟩
  | intern text => exact ⟨.refl _, w.names.extends_intern text⟩

theorem extends_after {w : Workspace shardOf} (h : w.store.Numbered) (ops : List Operation)
    (hsize : (w.after ops).store.size < 4294967296) : w.Extends (w.after ops) := by
  induction ops generalizing w with
  | nil => exact ⟨.refl _, .refl _⟩
  | cons op ops ih =>
    have hroom := Nat.lt_of_le_of_lt ((w.step op).size_le_after ops) hsize
    have hstep := extends_step h op hroom
    have hrest := ih (numbered_step h op hroom) hsize
    exact ⟨hstep.store.trans hrest.store, hstep.names.trans hrest.names⟩

theorem sound_after {w : Workspace shardOf} (h : w.names.Sound) (ops : List Operation) :
    (w.after ops).names.Sound := by
  induction ops generalizing w with
  | nil => exact h
  | cons op ops ih =>
    refine ih (w := w.step op) ?_
    cases op with
    | change ch => exact h
    | declare kind name params => exact h.internAll _
    | intern text => exact h.intern text

end Workspace

/-- What a key carries stays right: after any operations its type is well-formed, has the text of the key and makes the
same key again; and a name keeps its atom. -/
theorem keys_stay_valid {shardOf : String → Fin 16} (w w' : Workspace shardOf) (before later : List Operation)
    (hw : w = Workspace.new.after before) (hw' : w' = w.after later) (hsize : w'.store.size < 4294967295) :
    (∀ make, make = Key.of ∨ make = Key.template → ∀ d k, make w.store d = .ok k →
      w'.store.checkArity k.descriptor = .ok () ∧ w'.store.text k.descriptor = k.text ∧
        make w'.store d = .ok k) ∧
    ∀ name a, w.names.lookup name = some a →
      w'.names.lookup name = some a ∧ w'.names.resolve? a = some name := by
  have hroom : w.store.size < 4294967296 := by
    rw [hw'] at hsize
    exact Nat.lt_of_le_of_lt (w.size_le_after later) (Nat.lt_succ_of_lt hsize)
  have hnumbered : w.store.Numbered := by
    rw [hw] at hroom ⊢
    exact Workspace.numbered_after Store.numbered_empty before hroom
  have hext : w.Extends w' := by
    rw [hw'] at hsize ⊢
    exact Workspace.extends_after hnumbered later (Nat.lt_succ_of_lt hsize)
  constructor
  · intro make hmake d k hk
    obtain ⟨allowVars, rfl⟩ : ∃ allowVars, make = fun s d => Key.freeze s d allowVars := by
      rcases hmake with rfl | rfl
      · exact ⟨false, rfl⟩
      · exact ⟨true, rfl⟩
    have hk' := Key.freeze_of_extends hext.store hk
    obtain ⟨hwf, _, c, _, heq⟩ := Key.freeze_eq_ok_iff.1 hk'
    refine ⟨?_, ?_, hk'⟩
    · rw [heq]
      exact Store.checkArity_eq_ok_iff.2 hwf
    · rw [heq]
  · intro name a ha
    have hsound : w.names.Sound := by
      rw [hw]
      exact Workspace.sound_after Interner.sound_new before
    exact ⟨hext.names.lookup ha, hext.names.resolve? (hsound.resolve?_of_lookup ha)⟩

/-- A class for sequences below that of all objects. -/
def opening : List Operation :=
  [.declare .ordinary "Object" [], .declare .interface "Sequence" ["T"],
    .change (.setSupertypes ⟨2⟩ [.bare ⟨1⟩]), .change (.setRoot ⟨1⟩)]

/-- Both names are declared anew, and the first sequences get other supertypes, bounds and surroundings. -/
def overhaul : List Operation :=
  [.change (.register ⟨.ordinary, "Object", [], [], none⟩), .declare .ordinary "Sequence" ["T", "U"],
    .change (.setSupertypes ⟨2⟩ [.generic ⟨2⟩ [.generic ⟨2⟩ [.var ⟨.ofClass ⟨2⟩, "T"⟩]]]),
    .change (.setBounds ⟨2⟩ "T" [.bare ⟨3⟩]), .change (.setRoot ⟨3⟩), .change (.setEnclosing ⟨2⟩ ⟨4⟩),
    .change (.setMethodParams ⟨2⟩ "map" [⟨"R", []⟩]), .intern "Text"]

/-- The key of the first sequences with their own parameter. -/
def sequenceTemplate : Key := ⟨.generic ⟨2⟩ [.var ⟨.ofClass ⟨2⟩, "T"⟩], ⟨2⟩, "Sequence<T>", true⟩

theorem overhaul_keeps_template :
    let w := (Workspace.new : Workspace shardBySum).after opening
    let w' := w.after overhaul
    Key.template w.store sequenceTemplate.descriptor = .ok sequenceTemplate ∧
      Key.template w'.store sequenceTemplate.descriptor = .ok sequenceTemplate ∧
      w'.store.text sequenceTemplate.descriptor = "Sequence<T>" ∧
      ∃ a, w.names.lookup "Sequence" = some a ∧ w'.names.resolve? a = some "Sequence" := by
  intro w w'
  have hatom : (((Workspace.new : Workspace shardBySum).after opening).names.lookup "Sequence").isSome := by
    decide +kernel
  have hmade : Key.template w.store sequenceTemplate.descriptor = .ok sequenceTemplate := by rfl
  obtain ⟨hkeys, hnames⟩ := keys_stay_valid w w' opening overhaul rfl rfl (by decide)
  obtain ⟨_, htext, hagain⟩ := hkeys Key.template (.inr rfl) _ _ hmade
  obtain ⟨a, ha⟩ := Option.isSome_iff_exists.1 hatom
  exact ⟨hmade, hagain, htext, a, ha, (hnames _ a ha).2⟩

end Generics
