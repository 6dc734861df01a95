import Generics.Proofs.BindingModes
import Generics.Proofs.Faults
import Mathlib.Data.List.Induction

/-! # Where the items of a queue go

A template has a list of slots: one for each variable, at its first occurrence, and one for each wildcard, owner before
arguments and from left to right. Actualization by position puts the items of the queue into the slots in this order,
and the template filled with them is what it comes to (`queue_fills_slots`). It runs out of items exactly where there
are fewer of them than slots, and has items left over only if there are more.

The run is followed place by place. `Supply.Served` is the account of a supply on the way: what each slot so far has
been given, and what is left. `Fills` says of a computation that it keeps the account over the places it goes through;
one lemma each shows it for a variable and for a wildcard, and it goes through sequences, hence through a template. -/

namespace Generics
set_option autoImplicit false

open Result

/-- What takes an item of a queue: a variable, wherever it occurs, or a single wildcard, which is known by its
number. -/
inductive Slot
  | var (v : TypeVar)
  | wildcard (number : Nat)
deriving DecidableEq, Repr

namespace Descriptor

/-! ## Places and slots -/

mutual

/-- How many wildcards there are, those in the bounds of others not counted. -/
def wildcards : Descriptor → Nat
  | .bare _ => 0
  | .applied owner _ args => ownerWildcards owner + listWildcards args
  | .var _ => 0
  | .wildcard _ _ => 1
termination_by structural d => d

def ownerWildcards : Option Descriptor → Nat
  | none => 0
  | some d => d.wildcards
termination_by structural owner => owner

def listWildcards : List Descriptor → Nat
  | [] => 0
  | d :: ds => d.wildcards + listWildcards ds
termination_by structural ds => ds

end

mutual

/-- The slots of the placeholders as these occur, the wildcards being numbered from `n` on. -/
def placesFrom : Descriptor → Nat → List Slot
  | .bare _, _ => []
  | .applied owner _ args, n => ownerPlacesFrom owner n ++ listPlacesFrom args (n + ownerWildcards owner)
  | .var v, _ => [.var v]
  | .wildcard _ _, n => [.wildcard n]
termination_by structural d => d

def ownerPlacesFrom : Option Descriptor → Nat → List Slot
  | none, _ => []
  | some d, n => d.placesFrom n
termination_by structural owner => owner

def listPlacesFrom : List Descriptor → Nat → List Slot
  | [], _ => []
  | d :: ds, n => d.placesFrom n ++ listPlacesFrom ds (n + d.wildcards)
termination_by structural ds => ds

end

/-- The slots of a template, each at its first occurrence. -/
def slots (d : Descriptor) : List Slot := (d.placesFrom 0).eraseDups

mutual

/-- The descriptor with what `f` gives to the slots in the places of these, the wildcards being numbered from `n` on. -/
def fillFrom (f : Slot → Descriptor) : Descriptor → Nat → Descriptor
  | .bare c, _ => .bare c
  | .applied owner c args, n =>
    .applied (ownerFillFrom f owner n) c (listFillFrom f args (n + ownerWildcards owner))
  | .var v, _ => f (.var v)
  | .wildcard _ _, n => f (.wildcard n)
termination_by structural d => d

def ownerFillFrom (f : Slot → Descriptor) : Option Descriptor → Nat → Option Descriptor
  | none, _ => none
  | some d, n => some (d.fillFrom f n)
termination_by structural owner => owner

def listFillFrom (f : Slot → Descriptor) : List Descriptor → Nat → List Descriptor
  | [], _ => []
  | d :: ds, n => d.fillFrom f n :: listFillFrom f ds (n + d.wildcards)
termination_by structural ds => ds

end

/-- A template with its slots filled. -/
def fill (f : Slot → Descriptor) (d : Descriptor) : Descriptor := d.fillFrom f 0

variable {f g : Slot → Descriptor}

theorem listFillFrom_congr {ds : List Descriptor}
    (h : ∀ d ∈ ds, ∀ n, (∀ slot ∈ d.placesFrom n, f slot = g slot) → d.fillFrom f n = d.fillFrom g n) (n : Nat)
    (hfg : ∀ slot ∈ listPlacesFrom ds n, f slot = g slot) : listFillFrom f ds n = listFillFrom g ds n := by
  induction ds generalizing n with
  | nil => rfl
  | cons d ds ih =>
    obtain ⟨hd, hds⟩ := List.forall_mem_cons.1 h
    simp only [listPlacesFrom, List.forall_mem_append] at hfg
    rw [listFillFrom, listFillFrom, hd n hfg.1, ih hds _ hfg.2]

/-- What goes into other slots does not matter. -/
theorem fillFrom_congr {d : Descriptor} (n : Nat) (h : ∀ slot ∈ d.placesFrom n, f slot = g slot) :
    d.fillFrom f n = d.fillFrom g n := by
  induction d using Descriptor.induct generalizing n with
  | bare c => rfl
  | applied owner c args ho ha =>
    simp only [placesFrom, List.forall_mem_append] at h
    rw [fillFrom, fillFrom, listFillFrom_congr (fun a hmem m => ha a hmem m) _ h.2]
    cases owner with
    | none => rfl
    | some o => rw [ownerFillFrom, ownerFillFrom, ho o rfl n h.1]
  | var v => exact h _ (by simp [placesFrom])
  | wildcard lower upper => exact h _ (by simp [placesFrom])

theorem ownerFillFrom_congr {owner : Option Descriptor} (n : Nat)
    (h : ∀ slot ∈ ownerPlacesFrom owner n, f slot = g slot) : ownerFillFrom f owner n = ownerFillFrom g owner n := by
  cases owner with
  | none => rfl
  | some d => rw [ownerFillFrom, ownerFillFrom, fillFrom_congr n h]

end Descriptor

/-! ## First occurrences -/

section FirstOccurrences

variable {α : Type} [DecidableEq α]

theorem eraseDups_concat_of_mem {l : List α} {a : α} (h : a ∈ l) : (l ++ [a]).eraseDups = l.eraseDups := by
  have hnone : [a].removeAll l = [] := by simp [List.removeAll, h]
  rw [List.eraseDups_append, hnone]
  simp

theorem eraseDups_concat_of_not_mem {l : List α} {a : α} (h : a ∉ l) :
    (l ++ [a]).eraseDups = l.eraseDups ++ [a] := by
  have hall : [a].removeAll l = [a] := by simp [List.removeAll, h]
  rw [List.eraseDups_append, hall]
  simp [List.eraseDups_cons]

theorem length_eraseDups_le_append (l l' : List α) : l.eraseDups.length ≤ (l ++ l').eraseDups.length := by
  rw [List.eraseDups_append, List.length_append]
  omega

theorem nodup_eraseDups (l : List α) : l.eraseDups.Nodup := by
  induction l using List.reverseRecOn with
  | nil => simp
  | append_singleton l a ih =>
    by_cases h : a ∈ l
    · rw [eraseDups_concat_of_mem h]
      exact ih
    · rw [eraseDups_concat_of_not_mem h]
      refine List.nodup_append.2 ⟨ih, by simp, ?_⟩
      rintro b hb c hc rfl
      rw [List.mem_singleton.1 hc] at hb
      exact h (List.mem_eraseDups.1 hb)

end FirstOccurrences

/-! ## The account of a supply -/

/-- After the places `seen`, with the wildcards numbered up to `n`, each slot has had what `f` says, one item of the
queue after the other, and the rest is left. -/
structure Supply.Served (queue : List Descriptor) (seen : List Slot) (n : Nat) (f : Slot → Descriptor)
    (supply : Supply) : Prop where
  queue_eq : queue = seen.eraseDups.map f ++ supply.items
  taken_eq : supply.taken = seen.eraseDups.length
  get?_bound : ∀ v, supply.bound.get? v = if .var v ∈ seen then some (f (.var v)) else none
  numbers : ∀ k, .wildcard k ∈ seen → k < n

/-- If the items ran out on the way through the places, all of them were taken and there are more slots; no fault on
the way is about items left over. -/
def Fault.ShortOf (queue : List Descriptor) (places : List Slot) : Fault → Prop
  | .bindingExhausted _ consumed => consumed = queue.length ∧ queue.length < places.eraseDups.length
  | .excessBindings _ _ => False
  | _ => True

variable {queue : List Descriptor} {places : List Slot}

theorem Fault.ShortOf.append {fault : Fault} (h : fault.ShortOf queue places) (more : List Slot) :
    fault.ShortOf queue (places ++ more) := by
  cases fault with
  | bindingExhausted placeholder consumed =>
    have hle := length_eraseDups_le_append places more
    exact ⟨h.1, Nat.lt_of_lt_of_le h.2 hle⟩
  | _ => exact h

theorem Fault.shortOf_of_isOfCheck {fault : Fault} (h : fault.isOfCheck) : fault.ShortOf queue places := by
  cases fault with
  | bindingExhausted placeholder consumed => cases h
  | excessBindings template remaining => cases h
  | _ => exact trivial

namespace Supply.Served

variable {seen : List Slot} {n : Nat} {f : Slot → Descriptor} {supply : Supply}

theorem start (queue : List Descriptor) (f : Slot → Descriptor) : Served queue [] 0 f ⟨queue, 0, .empty⟩ :=
  ⟨rfl, rfl, fun v => by simp, by simp⟩

/-- A variable that has its item already gets it again. -/
theorem again (h : supply.Served queue seen n f) {v : TypeVar} (hv : .var v ∈ seen) :
    supply.Served queue (seen ++ [.var v]) n f := by
  refine ⟨?_, ?_, fun w => ?_, fun k hk => h.numbers k (by simpa using hk)⟩
  · rw [eraseDups_concat_of_mem hv]
    exact h.queue_eq
  · rw [eraseDups_concat_of_mem hv]
    exact h.taken_eq
  · rw [h.get?_bound]
    by_cases hw : w = v
    · subst hw
      simp [hv]
    · simp [hw]

theorem short (h : supply.Served queue seen n f) (hitems : supply.items = []) {slot : Slot} (hslot : slot ∉ seen)
    (placeholder : String) :
    (Fault.bindingExhausted placeholder supply.taken).ShortOf queue (seen ++ [slot]) := by
  have hlen : queue.length = seen.eraseDups.length := by
    rw [h.queue_eq, hitems]
    simp
  refine ⟨h.taken_eq.trans hlen.symm, ?_⟩
  rw [eraseDups_concat_of_not_mem hslot, hlen]
  simp

/-- A new slot takes the next item. -/
theorem queue_eq_next (h : supply.Served queue seen n f) {slot : Slot} (hslot : slot ∉ seen) {a : Descriptor}
    {items : List Descriptor} (hitems : supply.items = a :: items) :
    queue = (seen ++ [slot]).eraseDups.map (Function.update f slot a) ++ items := by
  have hold : seen.eraseDups.map (Function.update f slot a) = seen.eraseDups.map f := by
    refine List.map_congr_left fun x hx => Function.update_of_ne ?_ a f
    rintro rfl
    exact hslot (List.mem_eraseDups.1 hx)
  rw [eraseDups_concat_of_not_mem hslot, List.map_append, hold, List.map_singleton, Function.update_self,
    List.append_assoc]
  rw [h.queue_eq, hitems]
  rfl

theorem taken_eq_next (h : supply.Served queue seen n f) {slot : Slot} (hslot : slot ∉ seen) :
    supply.taken + 1 = (seen ++ [slot]).eraseDups.length := by
  rw [eraseDups_concat_of_not_mem hslot, List.length_append, h.taken_eq]
  rfl

theorem next_var (h : supply.Served queue seen n f) {v : TypeVar} (hv : .var v ∉ seen) {a : Descriptor}
    {items : List Descriptor} (hitems : supply.items = a :: items) :
    Served queue (seen ++ [.var v]) n (Function.update f (.var v) a)
      ⟨items, supply.taken + 1, supply.bound.insert v a⟩ := by
  refine ⟨h.queue_eq_next hv hitems, h.taken_eq_next hv, fun w => ?_, fun k hk => h.numbers k (by simpa using hk)⟩
  rw [Substitution.get?_insert, h.get?_bound]
  by_cases hw : w = v
  · subst hw
    simp
  · simp [hw]

theorem wildcard_not_mem (h : supply.Served queue seen n f) : .wildcard n ∉ seen :=
  fun hmem => Nat.lt_irrefl n (h.numbers n hmem)

theorem next_wildcard (h : supply.Served queue seen n f) {a : Descriptor} {items : List Descriptor}
    (hitems : supply.items = a :: items) :
    Served queue (seen ++ [.wildcard n]) (n + 1) (Function.update f (.wildcard n) a)
      { supply with items, taken := supply.taken + 1 } := by
  refine ⟨h.queue_eq_next h.wildcard_not_mem hitems, h.taken_eq_next h.wildcard_not_mem, fun v => ?_, fun k hk => ?_⟩
  · rw [h.get?_bound]
    simp
  · rcases List.mem_append.1 hk with hk | hk
    · exact Nat.lt_succ_of_lt (h.numbers k hk)
    · simp only [List.mem_singleton, Slot.wildcard.injEq] at hk
      omega

end Supply.Served

/-! ## Computations that keep the account -/

/-- From a supply on the way, with the wildcards numbered up to `n`, the computation goes through the places, up to the
number `m`, and comes to what `out` makes of the items in them. -/
def Fills {α : Type} (x : StateT Supply Result α) (n m : Nat) (places : List Slot)
    (out : (Slot → Descriptor) → α) : Prop :=
  ∀ queue seen f supply, supply.Served queue seen n f →
    Ensures (Fault.ShortOf queue (seen ++ places))
      (fun r => ∃ g, (∀ slot ∈ seen, g slot = f slot) ∧ r.1 = out g ∧ r.2.Served queue (seen ++ places) m g)
      (x.run supply)

namespace Fills

variable {α β γ : Type}

theorem pure (a : α) (n : Nat) : Fills (pure a) n n [] fun _ => a := by
  intro queue seen f supply h
  refine ⟨f, fun _ _ => rfl, rfl, ?_⟩
  rw [List.append_nil]
  exact h

theorem both {x : StateT Supply Result α} {y : StateT Supply Result β} {n m k : Nat} {places places' : List Slot}
    {out : (Slot → Descriptor) → α} {out' : (Slot → Descriptor) → β} (hx : Fills x n m places out)
    (hy : Fills y m k places' out')
    (hout : ∀ f g : Slot → Descriptor, (∀ slot ∈ places, f slot = g slot) → out f = out g) (c : α → β → γ) :
    Fills (do let a ← x; let b ← y; return c a b) n k (places ++ places') fun f => c (out f) (out' f) := by
  intro queue seen f supply h
  rw [StateT.run_bind, ← List.append_assoc]
  refine Ensures.bind (Ensures.fault_mono (hx queue seen f supply h) fun fault hf => hf.append places') ?_
  rintro ⟨a, supply'⟩ ⟨g, hgf, rfl, hserved⟩
  rw [StateT.run_bind]
  refine Ensures.bind (hy queue (seen ++ places) g supply' hserved) ?_
  rintro ⟨b, supply''⟩ ⟨g', hg', rfl, hserved'⟩
  have hsame : out g = out g' := hout g g' fun slot hslot => (hg' slot (List.mem_append_right seen hslot)).symm
  refine ⟨g', fun slot hslot => ?_, ?_, hserved'⟩
  · rw [hg' slot (List.mem_append_left places hslot), hgf slot hslot]
  · exact congrArg (c · (out' g')) hsame

theorem map {x : StateT Supply Result α} {n m : Nat} {places : List Slot} {out : (Slot → Descriptor) → α}
    (hx : Fills x n m places out) (c : α → β) : Fills (c <$> x) n m places fun f => c (out f) := by
  intro queue seen f supply h
  rw [StateT.run_map]
  refine Ensures.map (hx queue seen f supply h) ?_
  rintro ⟨a, supply'⟩ ⟨g, hgf, rfl, hserved⟩
  exact ⟨g, hgf, rfl, hserved⟩

end Fills

namespace Store

variable {s : Store}

/-! ## Checks of what is taken -/

theorem failsAsCheck_fitsBound (a bound : Descriptor) : FailsAsCheck (s.fitsBound a bound) := by
  unfold fitsBound
  split
  · exact s.failsAsCheck_leavesRoom _ bound
  · exact s.failsAsCheck_isAssignable bound _

theorem ensures_checkBounds (v : TypeVar) (a : Descriptor) (known : Substitution) :
    Ensures (Fault.ShortOf queue places) (fun _ => True) (s.checkBounds v a known) := by
  refine ensures_forM fun declared _ => ?_
  refine Ensures.bind ((failsAsCheck_apply _ declared).fault_mono fun _ => Fault.shortOf_of_isOfCheck) fun bound _ => ?_
  split
  · exact trivial
  · refine Ensures.bind ((failsAsCheck_fitsBound a bound).fault_mono fun _ => Fault.shortOf_of_isOfCheck)
      fun fits _ => ?_
    cases fits <;> exact trivial

theorem ensures_checkWildcard (w : Wildcard) (a : Descriptor) (known : Substitution) :
    Ensures (Fault.ShortOf queue places) (fun _ => True) (s.checkWildcard w a known) := by
  refine Ensures.bind ((failsAsCheck_apply known _).fault_mono fun _ => Fault.shortOf_of_isOfCheck) fun resolved _ => ?_
  split
  · split
    · exact trivial
    · refine Ensures.bind ((s.failsAsCheck_admits _ a).fault_mono fun _ => Fault.shortOf_of_isOfCheck) fun fits _ => ?_
      cases fits <;> exact trivial
  · exact trivial

/-! ## Placeholders -/

section Placeholders

variable {n : Nat} {v : TypeVar} {lower upper items : List Descriptor} {known : Substitution}

theorem takeForVar_run_of_bound {a : Descriptor} (hv : known.get? v = some a) :
    (s.takeForVar v).run ⟨items, n, known⟩ = .ok (a, ⟨items, n, known⟩) := by
  rw [takeForVar]
  simp [hv]
  rfl

theorem takeForVar_run_nil (hv : known.get? v = none) :
    (s.takeForVar v).run ⟨[], n, known⟩ =
      .error (.bindingExhausted (s.text (.var v)) n) := by
  rw [takeForVar]
  simp [hv, takeItem]
  rfl

theorem takeForWildcard_run_nil :
    (s.takeForWildcard ⟨lower, upper⟩).run ⟨[], n, known⟩ =
      .error (.bindingExhausted (s.text (.wildcard lower upper)) n) := rfl

theorem takeForWildcard_run {a : Descriptor} :
    (s.takeForWildcard ⟨lower, upper⟩).run ⟨a :: items, n, known⟩ =
      s.checkWildcard ⟨lower, upper⟩ a known >>= fun _ => .ok (a, ⟨items, n + 1, known⟩) := by
  rw [takeForWildcard]
  cases hcheck : s.checkWildcard ⟨lower, upper⟩ a known with
  | error fault =>
    simp [takeItem, hcheck]
    rfl
  | ok u =>
    simp [takeItem, hcheck]
    rfl

end Placeholders

theorem fills_takeForVar (n : Nat) (v : TypeVar) :
    Fills (s.takeForVar v) n n [.var v] fun f => f (.var v) := by
  rintro queue seen f ⟨items, taken, known⟩ h
  have hget := h.get?_bound v
  by_cases hv : .var v ∈ seen
  · rw [if_pos hv] at hget
    rw [takeForVar_run_of_bound hget]
    exact ⟨f, fun _ _ => rfl, rfl, h.again hv⟩
  · rw [if_neg hv] at hget
    cases items with
    | nil =>
      rw [takeForVar_run_nil hget]
      exact h.short rfl hv (s.text (.var v))
    | cons a items =>
      rw [takeForVar_run hget]
      refine (ensures_checkBounds v a known).bind fun _ _ => ?_
      exact ⟨_, fun slot hslot => Function.update_of_ne (ne_of_mem_of_not_mem hslot hv) a f,
        (Function.update_self _ a f).symm, h.next_var hv rfl⟩

theorem fills_takeForWildcard (n : Nat) (lower upper : List Descriptor) :
    Fills (s.takeForWildcard ⟨lower, upper⟩) n (n + 1) [.wildcard n] fun f => f (.wildcard n) := by
  rintro queue seen f ⟨items, taken, known⟩ h
  have hnew := h.wildcard_not_mem
  cases items with
  | nil =>
    rw [takeForWildcard_run_nil]
    exact h.short rfl hnew (s.text (.wildcard lower upper))
  | cons a items =>
    rw [takeForWildcard_run]
    refine (ensures_checkWildcard _ a known).bind fun _ _ => ?_
    exact ⟨_, fun slot hslot => Function.update_of_ne (ne_of_mem_of_not_mem hslot hnew) a f,
      (Function.update_self _ a f).symm, h.next_wildcard rfl⟩

/-! ## Templates -/

theorem fills_list {act : Descriptor → StateT Supply Result Descriptor}
    (h : ∀ d n, Fills (act d) n (n + d.wildcards) (d.placesFrom n) fun f => d.fillFrom f n) (ds : List Descriptor)
    (n : Nat) :
    Fills (ds.mapM act) n (n + Descriptor.listWildcards ds) (Descriptor.listPlacesFrom ds n)
      fun f => Descriptor.listFillFrom f ds n := by
  induction ds generalizing n with
  | nil => exact Fills.pure [] n
  | cons d ds ih =>
    rw [List.mapM_cons, Descriptor.listWildcards, ← Nat.add_assoc]
    exact (h d n).both (ih (n + d.wildcards)) (fun f g hfg => Descriptor.fillFrom_congr n hfg) List.cons

theorem fills_owner {act : Descriptor → StateT Supply Result Descriptor}
    (h : ∀ d n, Fills (act d) n (n + d.wildcards) (d.placesFrom n) fun f => d.fillFrom f n)
    (owner : Option Descriptor) (n : Nat) :
    Fills (owner.mapM act) n (n + Descriptor.ownerWildcards owner) (Descriptor.ownerPlacesFrom owner n)
      fun f => Descriptor.ownerFillFrom f owner n := by
  cases owner with
  | none => exact Fills.pure none n
  | some d => exact (h d n).map some

theorem fills_replaceIn (levels : Nat) (d : Descriptor) (n : Nat) :
    Fills (d.replaceIn s.byPosition levels) n (n + d.wildcards) (d.placesFrom n) fun f => d.fillFrom f n := by
  induction levels generalizing d n with
  | zero =>
    intro queue seen f supply _
    exact trivial
  | succ levels ih =>
    cases d with
    | bare c => exact Fills.pure (Descriptor.bare c) n
    | applied owner c args =>
      rw [Descriptor.replaceIn, Descriptor.wildcards, ← Nat.add_assoc]
      refine (fills_owner ih owner n).both (fills_list ih args _) ?_ fun owner args => Descriptor.applied owner c args
      intro f g hfg
      exact Descriptor.ownerFillFrom_congr n hfg
    | var v =>
      rw [replaceIn_byPosition_var]
      exact fills_takeForVar n v
    | wildcard lower upper => exact fills_takeForWildcard n lower upper

/-- By position, an answer is the template with its slots filled by the items of the queue in order, and a fault tells
of items that are too few or too many. -/
theorem queue_fills_slots (s : Store) (template : Descriptor) (queue : List Descriptor) :
    template.slots.Nodup ∧
      (∀ out, s.actualize template (.queue queue) = .ok out →
        ∃ f, queue = template.slots.map f ∧ out = template.fill f) ∧
      (∀ placeholder consumed,
        s.actualize template (.queue queue) = .error (.bindingExhausted placeholder consumed) →
          consumed = queue.length ∧ queue.length < template.slots.length) ∧
      ∀ text remaining, s.actualize template (.queue queue) = .error (.excessBindings text remaining) →
        0 < remaining ∧ template.slots.length + remaining = queue.length := by
  have hrun := fills_replaceIn (s := s) maxActualizationDepth template 0 queue [] (fun _ => .unbounded)
    ⟨queue, 0, .empty⟩ (.start queue _)
  refine ⟨nodup_eraseDups _, ?_⟩
  rw [actualize_byPosition_eq]
  cases hresult : (template.replaceIn s.byPosition maxActualizationDepth).run ⟨queue, 0, .empty⟩ with
  | error fault =>
    rw [hresult] at hrun
    refine ⟨fun out h => (by cases h), ?_, ?_⟩
    · intro placeholder consumed h
      cases h
      exact hrun
    · intro text remaining h
      cases h
      exact hrun.elim
  | ok r =>
    obtain ⟨out, items, taken, bound⟩ := r
    rw [hresult] at hrun
    obtain ⟨f, _, rfl, hserved⟩ := hrun
    have hqueue := hserved.queue_eq
    cases items with
    | nil =>
      refine ⟨fun out h => ?_, fun _ _ h => (by cases h), fun _ _ h => (by cases h)⟩
      cases h
      exact ⟨f, by rw [hqueue]; simp [Descriptor.slots], rfl⟩
    | cons a items =>
      refine ⟨fun out h => (by cases h), fun _ _ h => (by cases h), fun text remaining h => ?_⟩
      cases h
      refine ⟨Nat.succ_pos _, ?_⟩
      rw [hqueue, List.length_append, List.length_map]
      rfl

end Store

/-- `Comparable<T>.Pair<? extends Number, Comparable<T>>`. -/
def pairOfComparables : Descriptor :=
  .applied (some (.generic ⟨4⟩ [.var ⟨.ofClass ⟨4⟩, "T"⟩])) ⟨5⟩
    [.extending (.bare ⟨2⟩), .generic ⟨4⟩ [.var ⟨.ofClass ⟨4⟩, "T"⟩]]

/-- The owner is filled first and the variable takes one item for both of its places, so that two items are enough, one
is too few and three are too many. -/
theorem containers_slots :
    pairOfComparables.slots = [.var ⟨.ofClass ⟨4⟩, "T"⟩, .wildcard 0] ∧
      (∃ f, [.bare ⟨2⟩, .bare ⟨3⟩] = pairOfComparables.slots.map f ∧
        .applied (some (.generic ⟨4⟩ [.bare ⟨2⟩])) ⟨5⟩ [.bare ⟨3⟩, .generic ⟨4⟩ [.bare ⟨2⟩]] =
          pairOfComparables.fill f) ∧
      (containers.actualize pairOfComparables (.queue [.bare ⟨2⟩]) =
          .error (.bindingExhausted "? extends Number" 1) ∧ 1 < pairOfComparables.slots.length) ∧
      ∃ text, containers.actualize pairOfComparables (.queue [.bare ⟨2⟩, .bare ⟨3⟩, .bare ⟨3⟩]) =
          .error (.excessBindings text 1) ∧ pairOfComparables.slots.length + 1 = 3 := by
  have hshort : containers.actualize pairOfComparables (.queue [.bare ⟨2⟩]) =
      .error (.bindingExhausted "? extends Number" 1) := by rfl
  obtain ⟨_, hfills, _, _⟩ := containers.queue_fills_slots pairOfComparables [.bare ⟨2⟩, .bare ⟨3⟩]
  obtain ⟨_, _, hexhausted, _⟩ := containers.queue_fills_slots pairOfComparables [.bare ⟨2⟩]
  obtain ⟨_, _, _, hexcess⟩ := containers.queue_fills_slots pairOfComparables [.bare ⟨2⟩, .bare ⟨3⟩, .bare ⟨3⟩]
  refine ⟨by rfl, hfills _ (by rfl), ⟨hshort, (hexhausted _ _ hshort).2⟩, _, by rfl, (hexcess _ 1 (by rfl)).2⟩

end Generics
