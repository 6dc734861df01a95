import Generics.Proofs.Registrations

/-! # What a store knows is what was done to it

Every operation on a store comes to a registration, to an edit of one declaration, to the choice of a root or to
nothing that shows in the declarations (`Store.change_cases`). The log of these effects (`Workspace.effects`) tells all
there is to know of a store: the numbers it gave out, the class a name means, its root, and each declaration, which is
the one registered with the later edits of that class made to it in order. -/

namespace Generics
set_option autoImplicit false

/-- A change to one declaration. -/
inductive Edit
  | setSupertypes (supertypes : List Descriptor)
  | setBounds (param : String) (bounds : List Descriptor)
  | setEnclosing (enclosing : ClassId)

/-- The declaration as edited; bounds are those of the first parameter of the name. -/
def Edit.apply (decl : ClassDecl) : Edit → ClassDecl
  | .setSupertypes supertypes => { decl with supertypes }
  | .setBounds param bounds =>
    { decl with params := decl.params.modify (decl.params.findIdx (·.name == param)) ({ · with bounds }) }
  | .setEnclosing enclosing => { decl with enclosing := some enclosing }

/-- What an operation came to: a class was registered, a declaration was edited, or a root was chosen. -/
inductive Effect
  | registered (c : ClassId) (decl : ClassDecl)
  | edited (c : ClassId) (edit : Edit)
  | rooted (c : ClassId)

def Effect.registration? : Effect → Option (ClassId × ClassDecl)
  | .registered c decl => some (c, decl)
  | _ => none

def Effect.root? : Effect → Option ClassId
  | .rooted c => some c
  | _ => none

/-- The edit of one class. -/
def Effect.editOf? (c : ClassId) : Effect → Option Edit
  | .edited c' edit => if c' = c then some edit else none
  | _ => none

theorem setBoundsIn_eq (params : List TypeParam) (name : String) (bounds : List Descriptor) :
    setBoundsIn params name bounds = params.modify (params.findIdx (·.name == name)) ({ · with bounds }) := by
  induction params with
  | nil => rfl
  | cons p params ih =>
    rw [setBoundsIn, List.findIdx_cons]
    by_cases h : p.name = name
    · simp [h]
    · have hb : (p.name == name) = false := by simpa using h
      rw [if_neg h, hb, ih]
      rfl

/-- The declaration that a change brings. -/
def Change.registered? : Change → Option ClassDecl
  | .register decl => some decl
  | _ => none

namespace Store

/-- What a setter answers; the other operations always do what they are asked. -/
def answer? (s : Store) : Change → Option Bool
  | .setSupertypes c supertypes => some (s.setSupertypes c supertypes).1
  | .setBounds c param bounds => some (s.setBounds c param bounds).1
  | .setRoot c => some (s.setRoot c).1
  | .setEnclosing c enclosing => some (s.setEnclosing c enclosing).1
  | .register _ => none
  | .setMethodParams _ _ _ => none

/-- What a setter changes is there: the class, and a parameter of the name if it is the bounds of one. -/
def Settable (s : Store) : Change → Prop
  | .setSupertypes c _ => s.contains c
  | .setBounds c param _ => ∃ decl, s.get? c = some decl ∧ param ∈ decl.params.map (·.name)
  | .setRoot c => s.contains c
  | .setEnclosing c _ => s.contains c
  | .register _ => True
  | .setMethodParams _ _ _ => True

/-- The effect of a change, which a setter has only if it answers yes. -/
def effect? (s : Store) (ch : Change) : Option Effect :=
  if s.answer? ch = some false then none else
  match ch with
  | .register decl => some (.registered (s.register decl).1 decl)
  | .setSupertypes c supertypes => some (.edited c (.setSupertypes supertypes))
  | .setBounds c param bounds => some (.edited c (.setBounds param bounds))
  | .setEnclosing c enclosing => some (.edited c (.setEnclosing enclosing))
  | .setRoot c => some (.rooted c)
  | .setMethodParams _ _ _ => none

variable {s : Store}

/-! ## One change -/

theorem fst_update (s : Store) (c : ClassId) (f : ClassDecl → ClassDecl) : (s.update c f).1 = s.contains c := by
  unfold update
  split
  · rename_i h
    exact h.symm
  · rename_i h
    exact (Bool.eq_false_iff.2 h).symm

theorem isSome_classVar? {c : ClassId} {name : String} :
    (s.classVar? c name).isSome ↔ ∃ decl, s.get? c = some decl ∧ name ∈ decl.params.map (·.name) := by
  unfold classVar?
  cases s.get? c with
  | none => simp
  | some decl =>
    have hfind : (findParam? decl.params name).isSome ↔ name ∈ decl.params.map (·.name) := by
      rw [findParam?, List.find?_isSome]
      simp
    cases hf : findParam? decl.params name with
    | none => simpa [hf] using hfind
    | some param => simpa [hf] using hfind

theorem fst_setBounds (s : Store) (c : ClassId) (param : String) (bounds : List Descriptor) :
    (s.setBounds c param bounds).1 = (s.classVar? c param).isSome := by
  unfold setBounds
  split
  · rename_i h
    obtain ⟨decl, hdecl, _⟩ := isSome_classVar?.1 h
    rw [fst_update, contains, hdecl, h]
    rfl
  · rename_i h
    exact (Bool.eq_false_iff.2 h).symm

theorem update_of_not_contains {c : ClassId} (h : s.contains c = false) (f : ClassDecl → ClassDecl) :
    (s.update c f).2 = s := by
  rw [update, h]
  rfl

theorem lookup_update (s : Store) (c : ClassId) (f : ClassDecl → ClassDecl) (name : String) :
    (s.update c f).2.lookup name = s.lookup name := by
  unfold update
  split <;> rfl

/-- A setter answers yes if what it sets is there, and no otherwise. -/
theorem answer?_eq_true_iff {ch : Change} {answer : Bool} (h : s.answer? ch = some answer) :
    answer = true ↔ s.Settable ch := by
  cases ch with
  | register decl => cases h
  | setSupertypes c supertypes =>
    cases h
    rw [setSupertypes, fst_update]
    rfl
  | setBounds c param bounds =>
    cases h
    rw [fst_setBounds, isSome_classVar?]
    rfl
  | setRoot c =>
    cases h
    unfold setRoot Settable
    split <;> simp_all
  | setEnclosing c enclosing =>
    cases h
    rw [setEnclosing, fst_update]
    rfl
  | setMethodParams c method params => cases h

/-- A setter that answers no leaves the store as it is. -/
theorem change_of_answer?_eq_false {ch : Change} (h : s.answer? ch = some false) : s.change ch = s := by
  cases ch with
  | register decl => cases h
  | setSupertypes c supertypes =>
    rw [answer?, setSupertypes, fst_update, Option.some_inj] at h
    exact update_of_not_contains h _
  | setBounds c param bounds =>
    rw [answer?, fst_setBounds, Option.some_inj] at h
    rw [change, setBounds, h]
    rfl
  | setRoot c =>
    rw [answer?, Option.some_inj] at h
    rw [change]
    unfold setRoot at h ⊢
    split
    · simp_all
    · rfl
  | setEnclosing c enclosing =>
    rw [answer?, setEnclosing, fst_update, Option.some_inj] at h
    exact update_of_not_contains h _
  | setMethodParams c method params => cases h

/-- What a change comes to and what it makes of the store. -/
theorem change_cases (s : Store) (ch : Change) :
    (∃ decl, ch.registered? = some decl ∧ s.effect? ch = some (.registered s.nextId decl) ∧
      s.change ch = (s.register decl).2) ∨
    (ch.registered? = none ∧ ∃ c edit, s.effect? ch = some (.edited c edit) ∧ s.contains c ∧
      s.change ch = (s.update c edit.apply).2) ∨
    (ch.registered? = none ∧ ∃ c, s.effect? ch = some (.rooted c) ∧ s.contains c ∧
      s.change ch = { s with root := some c }) ∨
    (ch.registered? = none ∧ s.effect? ch = none ∧ ∃ methods, s.change ch = { s with methods }) := by
  by_cases hno : s.answer? ch = some false
  · have hold : ch.registered? = none := by
      cases ch with
      | register decl => cases hno
      | _ => rfl
    exact .inr (.inr (.inr ⟨hold, if_pos hno, s.methods, change_of_answer?_eq_false hno⟩))
  have hset : ∀ answer, s.answer? ch = some answer → s.Settable ch := by
    intro answer h
    cases answer with
    | false => exact absurd h hno
    | true => exact (answer?_eq_true_iff h).1 rfl
  cases ch with
  | register decl => exact .inl ⟨decl, rfl, if_neg hno, rfl⟩
  | setSupertypes c supertypes =>
    exact .inr (.inl ⟨rfl, c, .setSupertypes supertypes, if_neg hno, hset _ rfl, rfl⟩)
  | setBounds c param bounds =>
    obtain ⟨decl, hdecl, hparam⟩ := hset _ rfl
    have hvar : (s.classVar? c param).isSome := isSome_classVar?.2 ⟨decl, hdecl, hparam⟩
    refine .inr (.inl ⟨rfl, c, .setBounds param bounds, if_neg hno, by rw [contains, hdecl]; rfl, ?_⟩)
    rw [change, setBounds, if_pos hvar]
    simp only [setBoundsIn_eq]
    rfl
  | setRoot c =>
    have hc : s.contains c := hset _ rfl
    exact .inr (.inr (.inl ⟨rfl, c, if_neg hno, hc, by rw [change, setRoot, if_pos hc]⟩))
  | setEnclosing c enclosing =>
    exact .inr (.inl ⟨rfl, c, .setEnclosing enclosing, if_neg hno, hset _ rfl, rfl⟩)
  | setMethodParams c method params => exact .inr (.inr (.inr ⟨rfl, if_neg hno, _, rfl⟩))

end Store

/-! ## A run -/

/-- The declaration that an operation brings. -/
def Operation.registered? : Operation → Option ClassDecl
  | .change ch => ch.registered?
  | .declare kind name params => some ⟨kind, name, params.map (⟨·, []⟩), [], none⟩
  | .intern _ => none

namespace Workspace

variable {shardOf : String → Fin 16}

def effect? (w : Workspace shardOf) : Operation → Option Effect
  | .change ch => w.store.effect? ch
  | .declare kind name params =>
    some (.registered (w.store.declare kind name params).1 ⟨kind, name, params.map (⟨·, []⟩), [], none⟩)
  | .intern _ => none

/-- The effects of operations in the order in which they come about. -/
def effects (w : Workspace shardOf) : List Operation → List Effect
  | [] => []
  | op :: ops => (w.effect? op).toList ++ (w.step op).effects ops

/-- What an operation comes to and what it makes of the store. -/
theorem step_cases (w : Workspace shardOf) (op : Operation) :
    (∃ decl, op.registered? = some decl ∧ w.effect? op = some (.registered w.store.nextId decl) ∧
      (w.step op).store = (w.store.register decl).2) ∨
    (op.registered? = none ∧ ∃ c edit, w.effect? op = some (.edited c edit) ∧ w.store.contains c ∧
      (w.step op).store = (w.store.update c edit.apply).2) ∨
    (op.registered? = none ∧ ∃ c, w.effect? op = some (.rooted c) ∧ w.store.contains c ∧
      (w.step op).store = { w.store with root := some c }) ∨
    (op.registered? = none ∧ w.effect? op = none ∧ ∃ methods, (w.step op).store = { w.store with methods }) := by
  cases op with
  | change ch => exact w.store.change_cases ch
  | declare kind name params => exact .inl ⟨_, rfl, rfl, rfl⟩
  | intern text => exact .inr (.inr (.inr ⟨rfl, rfl, w.store.methods, rfl⟩))

/-- The classes registered, with their numbers. -/
def registrations (log : List Effect) : List (ClassId × ClassDecl) := log.filterMap Effect.registration?

/-- The edits of one class. -/
def edits (log : List Effect) (c : ClassId) : List Edit := log.filterMap (Effect.editOf? c)

/-- The roots chosen. -/
def roots (log : List Effect) : List ClassId := log.filterMap Effect.root?

theorem registered_effects (w : Workspace shardOf) (ops : List Operation) :
    (registrations (w.effects ops)).map (·.2) = ops.filterMap Operation.registered? := by
  induction ops generalizing w with
  | nil => rfl
  | cons op ops ih =>
    rw [effects, registrations, List.filterMap_append, List.map_append]
    rcases w.step_cases op with ⟨decl, hop, heff, _⟩ | ⟨hop, c, edit, heff, _⟩ | ⟨hop, c, heff, _⟩ | ⟨hop, heff, _⟩
    · rw [heff, List.filterMap_cons_some hop]
      exact congrArg (decl :: ·) (ih (w.step op))
    all_goals
      rw [heff, List.filterMap_cons_none hop]
      exact ih (w.step op)

theorem size_step {w : Workspace shardOf} (h : w.store.Numbered) (op : Operation)
    (hsize : w.store.size < 4294967296) :
    (w.step op).store.size = w.store.size + op.registered?.toList.length := by
  rcases w.step_cases op with ⟨decl, hop, _, hstore⟩ | ⟨hop, c, edit, _, _, hstore⟩ | ⟨hop, c, _, _, hstore⟩ |
    ⟨hop, _, methods, hstore⟩
  · rw [hstore, hop, h.size_register hsize]
    rfl
  · rw [hstore, hop, Store.size_update]
    rfl
  · rw [hstore, hop]
    rfl
  · rw [hstore, hop]
    rfl

/-- While there are numbers left, every registration adds a class. -/
theorem size_after {w : Workspace shardOf} (h : w.store.Numbered) {ops : List Operation}
    (hcount : w.store.size + (ops.filterMap Operation.registered?).length < 4294967296) :
    (w.after ops).store.size = w.store.size + (ops.filterMap Operation.registered?).length := by
  induction ops generalizing w with
  | nil => rfl
  | cons op ops ih =>
    have hcons : (op :: ops).filterMap Operation.registered? =
        op.registered?.toList ++ ops.filterMap Operation.registered? := by
      cases hop : op.registered? <;> simp [hop]
    rw [hcons, List.length_append] at hcount ⊢
    have hstep := size_step h op (by omega)
    have hrest := ih (numbered_step h op (by omega)) (by omega)
    rw [show w.after (op :: ops) = (w.step op).after ops from rfl, hrest, hstep]
    omega

/-- Numbers are given out one after the other. -/
theorem numbers_effects {w : Workspace shardOf} (h : w.store.Numbered) (ops : List Operation)
    (hsize : (w.after ops).store.size < 4294967296) :
    (registrations (w.effects ops)).map (·.1.num.toNat) =
      List.range' (w.store.size + 1) (ops.filterMap Operation.registered?).length := by
  induction ops generalizing w with
  | nil => rfl
  | cons op ops ih =>
    have hstep : (w.step op).store.size < 4294967296 := Nat.lt_of_le_of_lt ((w.step op).size_le_after ops) hsize
    have hcount := size_step h op (Nat.lt_of_le_of_lt (w.size_le_step op) hstep)
    have hrest := ih (numbered_step h op hstep) hsize
    rw [hcount] at hstep hrest
    rw [effects, registrations, List.filterMap_append, List.map_append]
    rcases w.step_cases op with ⟨decl, hop, heff, _⟩ | ⟨hop, c, edit, heff, _⟩ | ⟨hop, c, heff, _⟩ | ⟨hop, heff, _⟩
    · rw [hop] at hrest hstep
      rw [heff, List.filterMap_cons_some hop, List.length_cons, List.range'_succ]
      exact List.cons_eq_cons.2 ⟨h.toNat_nextId hstep, hrest⟩
    all_goals
      rw [hop] at hrest
      rw [heff, List.filterMap_cons_none hop]
      exact hrest

/-- A name means the class registered last under it, and what it meant before if there is none. -/
theorem lookup_after (w : Workspace shardOf) (ops : List Operation) (name : String) :
    (w.after ops).store.lookup name =
      (((registrations (w.effects ops)).reverse.find? (·.2.name == name)).map (·.1)).or (w.store.lookup name) := by
  induction ops generalizing w with
  | nil => rfl
  | cons op ops ih =>
    rw [show w.after (op :: ops) = (w.step op).after ops from rfl, ih, effects, registrations, registrations,
      List.filterMap_append, List.reverse_append, List.find?_append, Option.map_or, Option.or_assoc]
    congr 1
    rcases w.step_cases op with ⟨decl, _, heff, hstore⟩ | ⟨_, c, edit, heff, _, hstore⟩ | ⟨_, c, heff, _, hstore⟩ |
      ⟨_, heff, methods, hstore⟩
    · rw [heff, hstore, Store.lookup_register]
      by_cases h : name = decl.name
      · simp [h, Effect.registration?]
      · have hb : (decl.name == name) = false := by simpa using Ne.symm h
        simp [h, hb, Effect.registration?]
    · rw [heff, hstore, Store.lookup_update]
      rfl
    · rw [heff, hstore]
      rfl
    · rw [heff, hstore]
      rfl

/-- The root is the one chosen last. -/
theorem root_after (w : Workspace shardOf) (ops : List Operation) :
    (w.after ops).store.root = (roots (w.effects ops)).getLast?.or w.store.root := by
  induction ops generalizing w with
  | nil => rfl
  | cons op ops ih =>
    rw [show w.after (op :: ops) = (w.step op).after ops from rfl, ih, effects, roots, roots,
      List.filterMap_append, List.getLast?_append, Option.or_assoc]
    congr 1
    rcases w.step_cases op with ⟨decl, _, heff, hstore⟩ | ⟨_, c, edit, heff, _, hstore⟩ | ⟨_, c, heff, _, hstore⟩ |
      ⟨_, heff, methods, hstore⟩
    · rw [heff, hstore]
      rfl
    · rw [heff, hstore, Store.root_update]
      rfl
    · rw [heff, hstore]
      rfl
    · rw [heff, hstore]
      rfl

/-- A declaration is edited by what is meant for its class and by nothing else. -/
theorem get?_step {w : Workspace shardOf} (hnew : ¬ w.store.contains w.store.nextId) (op : Operation) {c : ClassId}
    {decl : ClassDecl} (hc : w.store.get? c = some decl) :
    (w.step op).store.get? c = some ((edits (w.effect? op).toList c).foldl Edit.apply decl) := by
  rcases w.step_cases op with ⟨added, _, heff, hstore⟩ | ⟨_, c', edit, heff, _, hstore⟩ | ⟨_, c', heff, _, hstore⟩ |
    ⟨_, heff, methods, hstore⟩
  · rw [heff, hstore]
    exact Store.get?_register_of_get? hnew hc
  · rw [heff, hstore, Store.get?_update]
    by_cases h : c' = c
    · subst h
      simp [edits, Effect.editOf?, hc]
    · simp [edits, Effect.editOf?, h, Ne.symm h, hc]
  · rw [heff, hstore]
    exact hc
  · rw [heff, hstore]
    exact hc

theorem get?_after {w : Workspace shardOf} (h : w.store.Numbered) {ops : List Operation}
    (hsize : (w.after ops).store.size < 4294967296) {c : ClassId} {decl : ClassDecl}
    (hc : w.store.get? c = some decl) :
    (w.after ops).store.get? c = some ((edits (w.effects ops) c).foldl Edit.apply decl) := by
  induction ops generalizing w decl with
  | nil => exact hc
  | cons op ops ih =>
    have hstep : (w.step op).store.size < 4294967296 := Nat.lt_of_le_of_lt ((w.step op).size_le_after ops) hsize
    have hnew := h.not_contains_nextId (Nat.lt_of_le_of_lt (w.size_le_step op) hstep)
    rw [effects, edits, List.filterMap_append, List.foldl_append]
    exact ih (numbered_step h op hstep) hsize (get?_step hnew op hc)

/-- A declaration is the one registered, with the later edits of its class made in order. -/
theorem get?_after_registered {w : Workspace shardOf} (h : w.store.Numbered) {ops : List Operation}
    (hsize : (w.after ops).store.size < 4294967296) {before later : List Effect} {c : ClassId} {decl : ClassDecl}
    (hlog : w.effects ops = before ++ .registered c decl :: later) :
    (w.after ops).store.get? c = some ((edits later c).foldl Edit.apply decl) := by
  induction ops generalizing w before with
  | nil => simp [effects] at hlog
  | cons op ops ih =>
    have hnumbered := numbered_step h op (Nat.lt_of_le_of_lt ((w.step op).size_le_after ops) hsize)
    rw [effects] at hlog
    cases heff : w.effect? op with
    | none =>
      rw [heff] at hlog
      exact ih hnumbered hsize hlog
    | some effect =>
      rw [heff] at hlog
      cases before with
      | cons first before => exact ih hnumbered hsize (List.cons_eq_cons.1 hlog).2
      | nil =>
        obtain ⟨hfirst, hlater⟩ := List.cons_eq_cons.1 hlog
        subst hfirst
        have hnew : (w.step op).store.get? c = some decl := by
          rcases w.step_cases op with ⟨added, _, heff', hstore⟩ | ⟨_, c', edit, heff', _⟩ | ⟨_, c', heff', _⟩ |
            ⟨_, heff', _⟩
          · rw [heff] at heff'
            cases heff'
            rw [hstore, Store.get?_register, if_pos rfl]
          all_goals
            rw [heff] at heff'
            cases heff'
        rw [← hlater]
        exact get?_after hnumbered hsize hnew

theorem size_after_new {ops : List Operation} (hcount : (ops.filterMap Operation.registered?).length < 4294967296) :
    ((new : Workspace shardOf).after ops).store.size = (ops.filterMap Operation.registered?).length := by
  have hzero : (new : Workspace shardOf).store.size = 0 := rfl
  rw [size_after Store.numbered_empty (by rw [hzero, Nat.zero_add]; exact hcount), hzero, Nat.zero_add]

/-- The classes declared are those that were registered. -/
theorem contains_after_iff {ops : List Operation}
    (hcount : (ops.filterMap Operation.registered?).length < 4294967296) (c : ClassId) :
    ((new : Workspace shardOf).after ops).store.contains c ↔
      c ∈ (registrations ((new : Workspace shardOf).effects ops)).map (·.1) := by
  have hempty : (new : Workspace shardOf).store.Numbered := Store.numbered_empty
  have hsize : ((new : Workspace shardOf).after ops).store.size = _ := size_after_new hcount
  have hnumbers := numbers_effects hempty ops (hsize ▸ hcount)
  have hnumbered := numbered_after hempty ops (hsize ▸ hcount)
  have hinj : c.num.toNat ∈ (registrations ((new : Workspace shardOf).effects ops)).map (·.1.num.toNat) ↔
      c ∈ (registrations ((new : Workspace shardOf).effects ops)).map (·.1) := by
    rw [List.mem_map, List.mem_map]
    refine exists_congr fun entry => and_congr_right fun _ => ?_
    rw [UInt32.toNat_inj]
    exact ⟨congrArg ClassId.mk, congrArg ClassId.num⟩
  rw [hnumbered.contains_iff, ← hinj, hnumbers, List.mem_range'_1, hsize]
  have hzero : (new : Workspace shardOf).store.size = 0 := rfl
  omega

/-- All that a store knows can be read off the log of what was done to it. A setter says whether there is what it sets,
and changes nothing if there is not. -/
theorem store_follows_log (ops : List Operation) (w : Workspace shardOf) (log : List Effect)
    (hw : w = new.after ops) (hlog : log = (new : Workspace shardOf).effects ops)
    (hcount : (ops.filterMap Operation.registered?).length < 4294967295) :
    (registrations log).map (·.2) = ops.filterMap Operation.registered? ∧
    (registrations log).map (·.1.num.toNat) = List.range' 1 w.store.size ∧
    (∀ c, w.store.contains c ↔ c ∈ (registrations log).map (·.1)) ∧
    (∀ name, w.store.lookup name = ((registrations log).reverse.find? (·.2.name == name)).map (·.1)) ∧
    (w.store.root = (roots log).getLast? ∧ ∀ r, w.store.root = some r → w.store.contains r) ∧
    (∀ before c decl later, log = before ++ .registered c decl :: later →
      w.store.get? c = some ((edits later c).foldl Edit.apply decl)) ∧
    ∀ (v : Workspace shardOf) (ch : Change) (answer : Bool), v.store.answer? ch = some answer →
      (answer = true ↔ v.store.Settable ch) ∧ (answer = false → v.step (.change ch) = v) := by
  have hsize : w.store.size = (ops.filterMap Operation.registered?).length := by
    rw [hw, size_after_new (Nat.lt_succ_of_lt hcount)]
  have hroom : ((new : Workspace shardOf).after ops).store.size < 4294967296 := by
    rw [← hw, hsize]
    exact Nat.lt_succ_of_lt hcount
  have hbuilt : w.store.Built := hw ▸ built_after .empty ops
  refine ⟨?_, ?_, ?_, ?_, ⟨?_, fun r => hbuilt.contains_root⟩, ?_, ?_⟩
  · rw [hlog, registered_effects]
  · rw [hlog, hsize]
    exact numbers_effects Store.numbered_empty ops hroom
  · rw [hw, hlog]
    exact contains_after_iff (Nat.lt_succ_of_lt hcount)
  · intro name
    rw [hw, hlog, lookup_after]
    exact Option.or_none
  · rw [hw, hlog, root_after]
    exact Option.or_none
  · intro before c decl later hsplit
    rw [hw]
    exact get?_after_registered Store.numbered_empty hroom (hlog ▸ hsplit)
  · intro v ch answer hanswer
    refine ⟨Store.answer?_eq_true_iff hanswer, fun hno => ?_⟩
    rw [step, Store.change_of_answer?_eq_false (hno ▸ hanswer)]

/-- Sequences are declared twice, the second time with two parameters of one name. Some changes come too early, to a
parameter that is not there, or to a class that never is. -/
def redeclarations : List Operation :=
  [.change (.setEnclosing ⟨2⟩ ⟨1⟩), .declare .ordinary "Object" [], .change (.setRoot ⟨2⟩),
    .declare .interface "Sequence" ["T"], .change (.setBounds ⟨2⟩ "U" []), .change (.setBounds ⟨2⟩ "T" [.bare ⟨1⟩]),
    .change (.register ⟨.ordinary, "Sequence", [⟨"T", []⟩, ⟨"T", []⟩], [], none⟩),
    .change (.setBounds ⟨3⟩ "T" [.bare ⟨2⟩]), .intern "Text", .change (.setSupertypes ⟨2⟩ [.bare ⟨3⟩]),
    .change (.setSupertypes ⟨4⟩ [.bare ⟨1⟩]), .change (.setRoot ⟨1⟩), .change (.setSupertypes ⟨2⟩ [.bare ⟨1⟩]),
    .change (.setMethodParams ⟨2⟩ "map" [⟨"R", []⟩])]

theorem redeclarations_store :
    let w := (new : Workspace shardBySum).after redeclarations
    w.store.size = 3 ∧ w.store.lookup "Sequence" = some ⟨3⟩ ∧ w.store.root = some ⟨1⟩ ∧ w.store.contains ⟨1⟩ ∧
      w.store.get? ⟨2⟩ = some ⟨.interface, "Sequence", [⟨"T", [.bare ⟨1⟩]⟩], [.bare ⟨1⟩], none⟩ ∧
      w.store.get? ⟨3⟩ = some ⟨.ordinary, "Sequence", [⟨"T", [.bare ⟨2⟩]⟩, ⟨"T", []⟩], [], none⟩ ∧
      w.step (.change (.setBounds ⟨3⟩ "U" [])) = w := by
  intro w
  obtain ⟨_, _, _, hlookup, ⟨hroot, hdeclared⟩, hget, hset⟩ :=
    store_follows_log redeclarations w _ rfl rfl (by decide)
  have hobject : w.store.root = some ⟨1⟩ := hroot
  refine ⟨rfl, hlookup "Sequence", hobject, hdeclared _ hobject, ?_, ?_, (hset w _ false rfl).2 rfl⟩
  · exact hget [.registered ⟨1⟩ ⟨.ordinary, "Object", [], [], none⟩] ⟨2⟩ _ _ rfl
  · exact hget [.registered ⟨1⟩ ⟨.ordinary, "Object", [], [], none⟩,
      .registered ⟨2⟩ ⟨.interface, "Sequence", [⟨"T", []⟩], [], none⟩,
      .edited ⟨2⟩ (.setBounds "T" [.bare ⟨1⟩])] ⟨3⟩ _ _ rfl

end Workspace

end Generics
