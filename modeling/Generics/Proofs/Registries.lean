import Generics.Key.Registry
import Generics.Proofs.TextOrder

/-! # Registries are maps, and resolve in whatever order

`Contents` is a registry as a function from keys to values, where equal keys have one value. Every call answers as it
would on the contents and changes them as it should (`call_eq`), so the contents after any calls are known
(`get?_after`), and the entries are those contents in some order, no two of them with equal keys (`distinct_after`).

Resolution goes through the entries in their order. The keys that are accepted have the same ranks in every order, so
they are sorted alike by text and the picks agree (`agree_resolve?`). -/

namespace Generics.Registry
set_option autoImplicit false

open Result

variable {α : Type} {s : Store}

/-! ## Calls -/

/-- One call that may write. -/
inductive Call (α : Type)
  | register (k : Key) (value : α)
  | getOrInsert (k : Key) (make : Unit → α)
  | getOrTryInsert (k : Key) (make : Unit → Result α)
  | remove (k : Key)
  | clear

/-- The answer to a call, and the registry after it. -/
def call (r : Registry α) : Call α → Result (Option α) × Registry α
  | .register k value => (.ok (r.insert k value).1, (r.insert k value).2)
  | .getOrInsert k make => (.ok (some (r.getOrInsert k make).1), (r.getOrInsert k make).2)
  | .getOrTryInsert k make => (some <$> (r.getOrTryInsert k make).1, (r.getOrTryInsert k make).2)
  | .remove k => (.ok (r.erase k).1, (r.erase k).2)
  | .clear => (.ok none, r.clear)

def after (r : Registry α) (calls : List (Call α)) : Registry α := calls.foldl (fun r c => (r.call c).2) r

/-- The value of each key that has one. -/
abbrev Contents (α : Type) : Type := Key → Option α

namespace Contents

def none : Contents α := fun _ => .none

/-- One value for all keys equal to the one given, or none. -/
def set (m : Contents α) (k : Key) (value : Option α) : Contents α := fun q => if k == q then value else m q

/-- The answer to a call, and the contents after it. -/
def call (m : Contents α) : Call α → Result (Option α) × Contents α
  | .register k value => (.ok (m k), m.set k (some value))
  | .getOrInsert k make =>
    match m k with
    | some value => (.ok (some value), m)
    | .none => (.ok (some (make ())), m.set k (some (make ())))
  | .getOrTryInsert k make =>
    match m k, make () with
    | some value, _ => (.ok (some value), m)
    | .none, .ok value => (.ok (some value), m.set k (some value))
    | .none, .error fault => (.error fault, m)
  | .remove k => (.ok (m k), m.set k .none)
  | .clear => (.ok .none, none)

def after (m : Contents α) (calls : List (Call α)) : Contents α := calls.foldl (fun m c => (m.call c).2) m

end Contents

/-! ## Lookups -/

theorem get?_cons (e : Key × α) (es : List (Key × α)) (q : Key) :
    get? ⟨e :: es⟩ q = if e.1 == q then some e.2 else get? ⟨es⟩ q := by
  rw [get?, List.find?_cons]
  cases e.1 == q <;> rfl

/-- Once a key is set, an entry of it does not show. -/
theorem set_get?_cons_of_beq {e : Key × α} {k : Key} (h : e.1 == k) (es : List (Key × α)) (value : Option α) (q : Key) :
    Contents.set (get? ⟨e :: es⟩) k value q = Contents.set (get? ⟨es⟩) k value q := by
  rw [Contents.set, Contents.set, get?_cons, BEq.congr_left h]
  split <;> rfl

/-- An entry of another key still does. -/
theorem set_get?_cons_of_not_beq {e : Key × α} {k : Key} (h : ¬ e.1 == k) (es : List (Key × α)) (value : Option α)
    (q : Key) :
    Contents.set (get? ⟨e :: es⟩) k value q = if e.1 == q then some e.2 else Contents.set (get? ⟨es⟩) k value q := by
  rw [Contents.set, Contents.set, get?_cons]
  split
  next hkq =>
    have heq : ¬ e.1 == q := fun heq => h (BEq.trans heq (BEq.symm hkq))
    rw [if_neg heq]
  next => rfl

theorem get?_put (k : Key) (value : α) (es : List (Key × α)) :
    get? ⟨put k value es⟩ = Contents.set (get? ⟨es⟩) k (some value) := by
  funext q
  induction es with
  | nil => rw [put, get?_cons, Contents.set]
  | cons e es ih =>
    rw [put]
    split
    next hek =>
      rw [set_get?_cons_of_beq hek, get?_cons, BEq.congr_left hek]
      rfl
    next hek => rw [set_get?_cons_of_not_beq hek, get?_cons, ih]

theorem get?_erase (r : Registry α) (k : Key) : (r.erase k).2.get? = Contents.set r.get? k none := by
  funext q
  obtain ⟨es⟩ := r
  rw [erase]
  induction es with
  | nil => simp [get?, Contents.set]
  | cons e es ih =>
    rw [List.filter_cons]
    split
    next hek => rw [set_get?_cons_of_not_beq (by simpa using hek), get?_cons, ih]
    next hek => rw [set_get?_cons_of_beq (by simpa using hek), ih]

/-! ## Calls on contents -/

/-- A call answers and changes the contents as it would without the entries. -/
theorem call_eq (r : Registry α) (c : Call α) :
    (r.call c).1 = (Contents.call r.get? c).1 ∧ (r.call c).2.get? = (Contents.call r.get? c).2 := by
  cases c with
  | register k value => exact ⟨rfl, get?_put k value r.entries⟩
  | getOrInsert k make =>
    simp only [call, getOrInsert, Contents.call]
    cases hk : r.get? k with
    | some value => exact ⟨rfl, rfl⟩
    | none => exact ⟨rfl, get?_put k (make ()) r.entries⟩
  | getOrTryInsert k make =>
    simp only [call, getOrTryInsert, Contents.call]
    cases hk : r.get? k with
    | some value => exact ⟨rfl, rfl⟩
    | none =>
      cases make () with
      | ok value => exact ⟨rfl, get?_put k value r.entries⟩
      | error fault => exact ⟨rfl, rfl⟩
  | remove k => exact ⟨rfl, get?_erase r k⟩
  | clear => exact ⟨rfl, rfl⟩

theorem get?_after (r : Registry α) (calls : List (Call α)) : (r.after calls).get? = Contents.after r.get? calls := by
  induction calls generalizing r with
  | nil => rfl
  | cons c calls ih =>
    rw [after, List.foldl_cons, Contents.after, List.foldl_cons, ← (call_eq r c).2]
    exact ih (r.call c).2

/-- A value that cannot be made changes nothing, not even the order of the entries. -/
theorem call_getOrTryInsert_of_error (r : Registry α) (k : Key) {make : Unit → Result α} {fault : Fault}
    (h : make () = .error fault) : (r.call (.getOrTryInsert k make)).2 = r := by
  simp only [call, getOrTryInsert, h]
  cases r.get? k <;> rfl

/-! ## One entry for equal keys -/

def Distinct (es : List (Key × α)) : Prop := es.Pairwise fun e e' => (e.1 == e'.1) = false

theorem mem_put {k : Key} {value : α} {es : List (Key × α)} {e : Key × α} (h : e ∈ put k value es) :
    e.1 = k ∨ ∃ e' ∈ es, e.1 = e'.1 := by
  induction es with
  | nil => exact .inl (by rw [List.mem_singleton.1 h])
  | cons first es ih =>
    rw [put] at h
    split at h
    · rcases List.mem_cons.1 h with rfl | h
      · exact .inr ⟨first, List.mem_cons_self, rfl⟩
      · exact .inr ⟨e, List.mem_cons_of_mem first h, rfl⟩
    · rcases List.mem_cons.1 h with rfl | h
      · exact .inr ⟨e, List.mem_cons_self, rfl⟩
      · exact (ih h).imp_right fun hex => hex.imp fun e' he' => ⟨List.mem_cons_of_mem first he'.1, he'.2⟩

theorem Distinct.put {es : List (Key × α)} (h : Distinct es) (k : Key) (value : α) : Distinct (put k value es) := by
  induction es with
  | nil => exact List.pairwise_singleton _ _
  | cons e es ih =>
    obtain ⟨he, hes⟩ := List.pairwise_cons.1 h
    rw [Registry.put]
    split
    next => exact List.pairwise_cons.2 ⟨he, hes⟩
    next hek =>
      refine List.pairwise_cons.2 ⟨fun x hx => ?_, ih hes⟩
      rcases mem_put hx with heq | ⟨e', he', heq⟩
      · rw [heq]
        simpa using hek
      · rw [heq]
        exact he e' he'

theorem distinct_call {r : Registry α} (h : Distinct r.entries) (c : Call α) : Distinct (r.call c).2.entries := by
  cases c with
  | register k value => exact h.put k value
  | getOrInsert k make =>
    rw [call, getOrInsert]
    cases r.get? k with
    | some value => exact h
    | none => exact h.put k (make ())
  | getOrTryInsert k make =>
    rw [call, getOrTryInsert]
    cases r.get? k with
    | some value => exact h
    | none =>
      cases make () with
      | ok value => exact h.put k value
      | error fault => exact h
  | remove k => exact h.filter _
  | clear => exact .nil

theorem distinct_after {r : Registry α} (h : Distinct r.entries) (calls : List (Call α)) :
    Distinct (r.after calls).entries := by
  induction calls generalizing r with
  | nil => exact h
  | cons c calls ih => exact ih (distinct_call h c)

theorem Distinct.eq_of_beq {es : List (Key × α)} (h : Distinct es) {e e' : Key × α} (he : e ∈ es) (he' : e' ∈ es)
    (hkey : e.1 == e'.1) : e = e' := by
  have hsymm : Std.Symm fun e e' : Key × α => (e.1 == e'.1) = false := ⟨fun _ _ hab => by rwa [BEq.comm]⟩
  by_contra hne
  have hfalse := List.Pairwise.forall h he he' hne
  rw [hkey] at hfalse
  cases hfalse

theorem beq_of_find? {es : List (Key × α)} {q : Key} {e : Key × α} (h : es.find? (·.1 == q) = some e) : e.1 == q := by
  simpa using List.find?_some h

/-- The entry found by its own key. -/
theorem Distinct.find?_eq {es : List (Key × α)} (h : Distinct es) {q : Key} {e : Key × α} (he : e ∈ es)
    (hkey : e.1 == q) : es.find? (·.1 == q) = some e := by
  cases hfind : es.find? (·.1 == q) with
  | none => exact absurd hkey (List.find?_eq_none.1 hfind e he)
  | some e' => rw [h.eq_of_beq (List.mem_of_find?_eq_some hfind) he (BEq.trans (beq_of_find? hfind) (BEq.symm hkey))]

/-- The entries are the contents in some order: there is one for all keys equal to one that has a value. -/
structure Contents.ListedBy (m : Contents α) (es : List (Key × α)) : Prop where
  distinct : Distinct es
  eq_some_iff : ∀ q value, m q = some value ↔ ∃ k, (k, value) ∈ es ∧ k == q

theorem Distinct.listedBy {es : List (Key × α)} (h : Distinct es) : Contents.ListedBy (get? ⟨es⟩) es := by
  refine ⟨h, fun q value => ?_⟩
  rw [get?, Option.map_eq_some_iff]
  constructor
  · rintro ⟨e, he, rfl⟩
    exact ⟨e.1, List.mem_of_find?_eq_some he, beq_of_find? he⟩
  · rintro ⟨k, hk, hkq⟩
    exact ⟨(k, value), h.find?_eq hk hkq, rfl⟩

theorem Contents.ListedBy.get?_eq {m : Contents α} {es : List (Key × α)} (h : m.ListedBy es) : get? ⟨es⟩ = m := by
  funext q
  apply Option.ext
  intro value
  rw [h.eq_some_iff, h.distinct.listedBy.eq_some_iff]

theorem Contents.ListedBy.perm {m : Contents α} {es es' : List (Key × α)} (h : m.ListedBy es) (hperm : es'.Perm es) :
    m.ListedBy es' := by
  refine ⟨(hperm.pairwise_iff fun hab => by rwa [BEq.comm]).2 h.distinct, fun q value => ?_⟩
  simp only [h.eq_some_iff, hperm.mem_iff]

theorem listedBy_after (calls : List (Call α)) :
    (Contents.none.after calls).ListedBy ((empty : Registry α).after calls).entries := by
  have h := (distinct_after (r := (empty : Registry α)) .nil calls).listedBy
  rwa [get?_after] at h

/-! ## Resolution -/

variable {hasher : Hasher} {es es' : List (Key × α)} {required : Key}

theorem mem_candidates {accepted : List (Key × α)} (h : candidates s ⟨es⟩ required = .ok accepted) {e : Key × α} :
    e ∈ accepted ↔ e ∈ es ∧ required.accepts s e.1 = .ok true := by
  obtain ⟨hsub, haccepted, hrest⟩ := filterM_eq_ok h
  refine ⟨fun he => ⟨hsub.subset he, haccepted e he⟩, fun he => ?_⟩
  rcases hrest e he.1 with hmem | hfalse
  · exact hmem
  · rw [he.2] at hfalse
    cases hfalse

/-- No entry that is accepted has a more specific key. -/
def Foremost (s : Store) (es : List (Key × α)) (required k : Key) : Prop :=
  ∀ e ∈ es, required.accepts s e.1 = .ok true → ¬ Key.Finer s e.1 k

theorem minimalIn_candidates_iff {accepted : List (Key × α)} (h : candidates s ⟨es⟩ required = .ok accepted)
    {k : Key} : Key.MinimalIn s (accepted.map (·.1)) k ↔ Foremost s es required k := by
  simp only [Key.MinimalIn, Foremost, List.forall_mem_map, mem_candidates h, and_imp]

/-- Without an entry of its own, a key is resolved to the entry whose key is chosen among those accepted. -/
theorem resolve?_eq_ok (hd : Distinct es) (hnone : get? ⟨es⟩ required = none) {found : Option (Key × α)}
    (h : resolve? hasher s ⟨es⟩ required = .ok found) :
    ∃ accepted, candidates s ⟨es⟩ required = .ok accepted ∧
      Key.mostSpecific? hasher s (accepted.map (·.1)) = .ok (found.map (·.1)) ∧ ∀ e, found = some e → e ∈ accepted := by
  rw [resolve?, hnone] at h
  obtain ⟨accepted, haccepted, h⟩ := bind_eq_ok_iff.1 h
  obtain ⟨best, hbest, h⟩ := bind_eq_ok_iff.1 h
  refine ⟨accepted, haccepted, ?_⟩
  rw [hbest]
  rcases Key.mostSpecific?_eq_ok hbest with ⟨_, rfl⟩ | ⟨k, hk, rfl, _⟩
  · cases h
    exact ⟨rfl, by simp⟩
  · obtain ⟨e, he, rfl⟩ := List.mem_map.1 hk
    have hdistinct : Distinct accepted := hd.sublist (filterM_eq_ok haccepted).1
    cases h
    rw [hdistinct.find?_eq he BEq.rfl]
    exact ⟨rfl, by simpa using he⟩

theorem resolve?_of_get? {value : α} (h : get? ⟨es⟩ required = some value) :
    resolve? hasher s ⟨es⟩ required = .ok (some (required, value)) := by
  rw [resolve?, h]
  rfl

theorem resolve?_eq_some (hd : Distinct es) (hnone : get? ⟨es⟩ required = none) {e : Key × α}
    (h : resolve? hasher s ⟨es⟩ required = .ok (some e)) :
    e ∈ es ∧ required.accepts s e.1 = .ok true ∧
      (Foremost s es required e.1 ∨
        ∀ e' ∈ es, required.accepts s e'.1 = .ok true → ¬ Foremost s es required e'.1) := by
  obtain ⟨accepted, haccepted, hbest, hmem⟩ := resolve?_eq_ok hd hnone h
  obtain ⟨he, haccepts⟩ := (mem_candidates haccepted).1 (hmem e rfl)
  refine ⟨he, haccepts, ?_⟩
  rcases Key.mostSpecific?_eq_ok hbest with ⟨_, hcontra⟩ | ⟨k, _, heq, hmin⟩
  · cases hcontra
  · cases heq
    simpa only [minimalIn_candidates_iff haccepted, List.forall_mem_map, mem_candidates haccepted, and_imp] using hmin

theorem resolve?_eq_none (hd : Distinct es) (hnone : get? ⟨es⟩ required = none)
    (h : resolve? hasher s ⟨es⟩ required = .ok none) : ∀ e ∈ es, required.accepts s e.1 = .ok false := by
  obtain ⟨accepted, haccepted, hbest, _⟩ := resolve?_eq_ok hd hnone h
  rcases Key.mostSpecific?_eq_ok hbest with ⟨hnil, _⟩ | ⟨k, _, heq, _⟩
  · intro e he
    rcases (filterM_eq_ok haccepted).2.2 e he with hmem | hfalse
    · rw [List.map_eq_nil_iff.1 hnil] at hmem
      cases hmem
    · exact hfalse
  · cases heq

/-! ## In whatever order -/

/-- Equal keys with one value. -/
def SameEntry (e e' : Key × α) : Prop := e.1 == e'.1 ∧ e.2 = e'.2

section Orders

variable {m : Contents α} {accepted accepted' : List (Key × α)}

theorem exists_sameEntry (h : m.ListedBy es) (h' : m.ListedBy es') {e : Key × α} (he : e ∈ es) :
    ∃ e' ∈ es', SameEntry e e' := by
  obtain ⟨k, hk, hkey⟩ := (h'.eq_some_iff e.1 e.2).1 ((h.eq_some_iff e.1 e.2).2 ⟨e.1, he, BEq.rfl⟩)
  exact ⟨(k, e.2), hk, BEq.symm hkey, rfl⟩

theorem sameEntry_of_beq (h : m.ListedBy es) (h' : m.ListedBy es') {e e' : Key × α} (he : e ∈ es) (he' : e' ∈ es')
    (hkey : e.1 == e'.1) : SameEntry e e' := by
  obtain ⟨x, hx, hxkey, hxvalue⟩ := exists_sameEntry h h' he
  rw [h'.distinct.eq_of_beq hx he' (BEq.trans (BEq.symm hxkey) hkey)] at hxvalue
  exact ⟨hkey, hxvalue⟩

/-- What is accepted in one order is accepted in the other, under an equal key. -/
theorem exists_candidate (h : m.ListedBy es) (h' : m.ListedBy es')
    (haccepted : candidates s ⟨es⟩ required = .ok accepted) (haccepted' : candidates s ⟨es'⟩ required = .ok accepted')
    {e : Key × α} (he : e ∈ accepted) : ∃ e' ∈ accepted', e.1 == e'.1 := by
  obtain ⟨hmem, haccepts⟩ := (mem_candidates haccepted).1 he
  obtain ⟨e', he', hkey, _⟩ := exists_sameEntry h h' hmem
  refine ⟨e', ?_, hkey⟩
  rcases (filterM_eq_ok haccepted').2.2 e' he' with hin | hfalse
  · exact hin
  · cases Key.agree_accepts BEq.rfl hkey true false haccepts hfalse

theorem mem_ranks_candidates (h : m.ListedBy es) (h' : m.ListedBy es') (hmade : ∀ e ∈ es, e.1.MadeIn s)
    (hmade' : ∀ e ∈ es', e.1.MadeIn s) (haccepted : candidates s ⟨es⟩ required = .ok accepted)
    (haccepted' : candidates s ⟨es'⟩ required = .ok accepted') {rank : String × UInt32 × UInt64}
    (hrank : rank ∈ (accepted.map (·.1)).map (Key.rank hasher)) :
    rank ∈ (accepted'.map (·.1)).map (Key.rank hasher) := by
  simp only [List.map_map, List.mem_map, Function.comp_apply] at hrank ⊢
  obtain ⟨e, he, rfl⟩ := hrank
  obtain ⟨e', he', hkey⟩ := exists_candidate h h' haccepted haccepted' he
  have hmem := ((mem_candidates haccepted).1 he).1
  have hmem' := ((mem_candidates haccepted').1 he').1
  exact ⟨e', he', ((hmade e hmem).rank_eq hasher (hmade' e' hmem') hkey).symm⟩

theorem nodup_ranks (hd : Distinct es) (hsep : Key.Separated hasher (es.map (·.1))) :
    ((es.map (·.1)).map (Key.rank hasher)).Nodup := by
  refine List.pairwise_map.2 (List.pairwise_map.2 (List.Pairwise.imp_of_mem (fun {e e'} he he' hne hrank => ?_) hd))
  have heq := hsep e.1 (List.mem_map_of_mem he) e'.1 (List.mem_map_of_mem he') hrank
  rw [hne] at heq
  cases heq

/-- Sorted by text, the keys accepted are equal one by one. -/
theorem forall₂_sorted_candidates (h : m.ListedBy es) (h' : m.ListedBy es') (hmade : ∀ e ∈ es, e.1.MadeIn s)
    (hmade' : ∀ e ∈ es', e.1.MadeIn s) (hsep : Key.Separated hasher ((es ++ es').map (·.1)))
    (haccepted : candidates s ⟨es⟩ required = .ok accepted)
    (haccepted' : candidates s ⟨es'⟩ required = .ok accepted') :
    List.Forall₂ (· == ·) (Key.sortByText hasher (accepted.map (·.1)))
      (Key.sortByText hasher (accepted'.map (·.1))) := by
  have hsub : ∀ k ∈ accepted.map (·.1), k ∈ (es ++ es').map (·.1) := by
    refine List.forall_mem_map.2 fun e he => List.mem_map_of_mem ?_
    exact List.mem_append_left es' ((mem_candidates haccepted).1 he).1
  have hsub' : ∀ k ∈ accepted'.map (·.1), k ∈ (es ++ es').map (·.1) := by
    refine List.forall_mem_map.2 fun e he => List.mem_map_of_mem ?_
    exact List.mem_append_right es ((mem_candidates haccepted').1 he).1
  have hnodup := nodup_ranks (h.distinct.sublist (filterM_eq_ok haccepted).1) (hsep.subset hsub)
  have hnodup' := nodup_ranks (h'.distinct.sublist (filterM_eq_ok haccepted').1) (hsep.subset hsub')
  -- no rank comes up twice, so the ranks need only have the same members
  refine Key.forall₂_sortByText ((List.perm_ext_iff_of_nodup hnodup hnodup').2 fun rank => ?_) fun a ha b hb =>
    hsep a (hsub a ha) b (hsub' b hb)
  exact ⟨mem_ranks_candidates h h' hmade hmade' haccepted haccepted',
    mem_ranks_candidates h' h hmade' hmade haccepted' haccepted⟩

/-- The same contents resolve a key to the same entry in every order, as far as there are answers. -/
theorem agree_resolve? (h : m.ListedBy es) (h' : m.ListedBy es') (hmade : ∀ e ∈ es, e.1.MadeIn s)
    (hmade' : ∀ e ∈ es', e.1.MadeIn s) (hsep : Key.Separated hasher ((es ++ es').map (·.1))) :
    Agree (Option.Rel SameEntry) (resolve? hasher s ⟨es⟩ required) (resolve? hasher s ⟨es'⟩ required) := by
  intro found found' hfound hfound'
  have hget := congrFun h.get?_eq required
  have hget' := congrFun h'.get?_eq required
  cases hm : m required with
  | some value =>
    rw [hm] at hget hget'
    rw [resolve?_of_get? hget] at hfound
    rw [resolve?_of_get? hget'] at hfound'
    cases hfound
    cases hfound'
    exact .some ⟨BEq.rfl, rfl⟩
  | none =>
    rw [hm] at hget hget'
    obtain ⟨accepted, haccepted, hbest, hmem⟩ := resolve?_eq_ok h.distinct hget hfound
    obtain ⟨accepted', haccepted', hbest', hmem'⟩ := resolve?_eq_ok h'.distinct hget' hfound'
    have hsorted := forall₂_sorted_candidates h h' hmade hmade' hsep haccepted haccepted'
    have hsame := Key.agree_mostSpecific? hsorted _ _ hbest hbest'
    cases found with
    | none =>
      cases found' with
      | none => exact .none
      | some e' => cases hsame
    | some e =>
      cases found' with
      | none => cases hsame
      | some e' =>
        cases hsame with
        | some hkey =>
          -- the picks are equal keys of entries, and those have one value
          have he := ((mem_candidates haccepted).1 (hmem e rfl)).1
          have he' := ((mem_candidates haccepted').1 (hmem' e' rfl)).1
          exact .some (sameEntry_of_beq h h' he he' hkey)

end Orders

/-- After any calls a registry is the map that they make, and a key is resolved to its own entry or to one that it
accepts, the same however the map is listed. -/
theorem registry_is_map_and_resolves (calls : List (Call α)) :
    let r := (empty : Registry α).after calls
    let m := Contents.none.after calls
    r.get? = m ∧ (∀ c, (r.call c).1 = (m.call c).1) ∧
      (∀ k make fault, make () = .error fault → (r.call (.getOrTryInsert k make)).2 = r) ∧
      (∀ es, es.Perm r.entries → m.ListedBy es) ∧
      ∀ es, m.ListedBy es → ∀ (hasher : Hasher) (s : Store) (required : Key),
        (∀ value, m required = some value → resolve? hasher s ⟨es⟩ required = .ok (some (required, value))) ∧
        (m required = none →
          (∀ k value, resolve? hasher s ⟨es⟩ required = .ok (some (k, value)) →
            m k = some value ∧ (k, value) ∈ es ∧ required.accepts s k = .ok true ∧
              (Foremost s es required k ∨
                ∀ e ∈ es, required.accepts s e.1 = .ok true → ¬ Foremost s es required e.1)) ∧
          (resolve? hasher s ⟨es⟩ required = .ok none → ∀ e ∈ es, required.accepts s e.1 = .ok false)) ∧
        ∀ es', m.ListedBy es' → (∀ e ∈ es, e.1.MadeIn s) → (∀ e ∈ es', e.1.MadeIn s) →
          Key.Separated hasher ((es ++ es').map (·.1)) →
          ∀ found found', resolve? hasher s ⟨es⟩ required = .ok found →
            resolve? hasher s ⟨es'⟩ required = .ok found' → Option.Rel SameEntry found found' := by
  intro r m
  have hget : r.get? = m := get?_after empty calls
  have hlisted : m.ListedBy r.entries := listedBy_after calls
  refine ⟨hget, fun c => ?_, fun k make fault h => r.call_getOrTryInsert_of_error k h,
    fun es hperm => hlisted.perm hperm, fun es hes hasher s required => ⟨fun value hm => ?_, fun hm => ?_, ?_⟩⟩
  · rw [← hget]
    exact (call_eq r c).1
  · exact resolve?_of_get? ((congrFun hes.get?_eq required).trans hm)
  · have hnone := (congrFun hes.get?_eq required).trans hm
    refine ⟨fun k value h => ?_, resolve?_eq_none hes.distinct hnone⟩
    have hfound := resolve?_eq_some hes.distinct hnone h
    exact ⟨(hes.eq_some_iff k value).2 ⟨k, hfound.1, BEq.rfl⟩, hfound⟩
  · intro es' hes' hmade hmade' hsep
    exact agree_resolve? hes hes' hmade hmade' hsep

/-- `Sequence<? extends ..>` with these bounds. -/
def sequenceKey (bounds : List Descriptor) : Key := shapesKey ⟨5⟩ [.wildcard [] bounds]

/-- Numbers are registered twice, first and last, and sequences of integers do not stay. -/
def numbersFirst : List (Call Nat) :=
  [.register (sequenceKey [.bare ⟨2⟩, .bare ⟨1⟩]) 1, .getOrInsert (shapesKey ⟨5⟩ [.bare ⟨3⟩]) fun _ => 5,
    .remove (shapesKey ⟨5⟩ [.bare ⟨3⟩]), .register (shapesKey ⟨5⟩ [.bare ⟨4⟩]) 3,
    .register (sequenceKey [.bare ⟨1⟩, .bare ⟨2⟩]) 2]

/-- Numbers are registered after texts, once their value can be made, and with the bounds turned round. -/
def textsFirst : List (Call Nat) :=
  [.clear, .register (shapesKey ⟨5⟩ [.bare ⟨4⟩]) 3,
    .getOrTryInsert (sequenceKey [.bare ⟨1⟩, .bare ⟨2⟩]) fun _ => .error (.unknownClass ⟨9⟩),
    .getOrTryInsert (sequenceKey [.bare ⟨1⟩, .bare ⟨2⟩]) fun _ => .ok 2]

theorem same_contents : (Contents.none : Contents Nat).after textsFirst = Contents.none.after numbersFirst := by
  have hfirst : (Contents.none : Contents Nat).after numbersFirst =
      ((((Contents.none.set (sequenceKey [.bare ⟨2⟩, .bare ⟨1⟩]) (some 1)).set (shapesKey ⟨5⟩ [.bare ⟨3⟩]) (some 5)).set
        (shapesKey ⟨5⟩ [.bare ⟨3⟩]) none).set (shapesKey ⟨5⟩ [.bare ⟨4⟩]) (some 3)).set
        (sequenceKey [.bare ⟨1⟩, .bare ⟨2⟩]) (some 2) := rfl
  have htexts : (Contents.none : Contents Nat).after textsFirst =
      (Contents.none.set (shapesKey ⟨5⟩ [.bare ⟨4⟩]) (some 3)).set (sequenceKey [.bare ⟨1⟩, .bare ⟨2⟩]) (some 2) := rfl
  have hsame : sequenceKey [.bare ⟨2⟩, .bare ⟨1⟩] == sequenceKey [.bare ⟨1⟩, .bare ⟨2⟩] := by rfl
  rw [hfirst, htexts]
  funext q
  simp only [Contents.set, Contents.none, BEq.congr_left hsame]
  split
  · rfl
  · split
    · rfl
    · split <;> rfl

/-- `Sequence<?>` is resolved to sequences of numbers after either calls, each time to the key that was stored. -/
theorem numbers_resolved_alike :
    (∀ hasher, resolve? hasher shapes (empty.after numbersFirst) (shapesKey ⟨5⟩ [.unbounded]) =
        .ok (some (sequenceKey [.bare ⟨2⟩, .bare ⟨1⟩], 2))) ∧
      (∀ hasher, resolve? hasher shapes (empty.after textsFirst) (shapesKey ⟨5⟩ [.unbounded]) =
        .ok (some (sequenceKey [.bare ⟨1⟩, .bare ⟨2⟩], 2))) ∧
      SameEntry (sequenceKey [.bare ⟨2⟩, .bare ⟨1⟩], 2) (sequenceKey [.bare ⟨1⟩, .bare ⟨2⟩], 2) := by
  have hfirst : ∀ hasher, resolve? hasher shapes (empty.after numbersFirst) (shapesKey ⟨5⟩ [.unbounded]) =
      .ok (some (sequenceKey [.bare ⟨2⟩, .bare ⟨1⟩], 2)) := fun _ => rfl
  have htexts : ∀ hasher, resolve? hasher shapes (empty.after textsFirst) (shapesKey ⟨5⟩ [.unbounded]) =
      .ok (some (sequenceKey [.bare ⟨1⟩, .bare ⟨2⟩], 2)) := fun _ => rfl
  refine ⟨hfirst, htexts, ?_⟩
  obtain ⟨_, _, _, hlisted, hresolves⟩ := registry_is_map_and_resolves numbersFirst
  have hlisted' := (registry_is_map_and_resolves textsFirst).2.2.2.1 _ (.refl _)
  rw [same_contents] at hlisted'
  have hnumbers : (sequenceKey [.bare ⟨2⟩, .bare ⟨1⟩]).MadeIn shapes :=
    ⟨(sequenceKey [.bare ⟨2⟩, .bare ⟨1⟩]).descriptor, false, rfl⟩
  have hturned : (sequenceKey [.bare ⟨1⟩, .bare ⟨2⟩]).MadeIn shapes :=
    ⟨(sequenceKey [.bare ⟨1⟩, .bare ⟨2⟩]).descriptor, false, rfl⟩
  have htext : (shapesKey ⟨5⟩ [.bare ⟨4⟩]).MadeIn shapes := ⟨(shapesKey ⟨5⟩ [.bare ⟨4⟩]).descriptor, false, rfl⟩
  have hmade : ∀ e ∈ ((empty : Registry Nat).after numbersFirst).entries, e.1.MadeIn shapes :=
    List.forall_mem_cons.2 ⟨hnumbers, List.forall_mem_cons.2 ⟨htext, by simp⟩⟩
  have hmade' : ∀ e ∈ ((empty : Registry Nat).after textsFirst).entries, e.1.MadeIn shapes :=
    List.forall_mem_cons.2 ⟨htext, List.forall_mem_cons.2 ⟨hturned, by simp⟩⟩
  have hsep : Key.Separated List.sum ((((empty : Registry Nat).after numbersFirst).entries ++
      ((empty : Registry Nat).after textsFirst).entries).map (·.1)) := by
    have hkeys : (((empty : Registry Nat).after numbersFirst).entries ++
        ((empty : Registry Nat).after textsFirst).entries).map (·.1) =
        [sequenceKey [.bare ⟨2⟩, .bare ⟨1⟩], shapesKey ⟨5⟩ [.bare ⟨4⟩], shapesKey ⟨5⟩ [.bare ⟨4⟩],
          sequenceKey [.bare ⟨1⟩, .bare ⟨2⟩]] := rfl
    rw [hkeys]
    -- the texts tell the keys apart, so that no digest has to
    intro a ha b hb hrank
    have heq : a.text = b.text := congrArg (·.1) hrank
    simp only [List.mem_cons, List.not_mem_nil, or_false] at ha hb
    rcases ha with rfl | rfl | rfl | rfl <;> rcases hb with rfl | rfl | rfl | rfl <;>
      first | rfl | exact absurd heq (by decide)
  have hrel := (hresolves _ (hlisted _ (.refl _)) List.sum shapes (shapesKey ⟨5⟩ [.unbounded])).2.2 _ hlisted' hmade
    hmade' hsep _ _ (hfirst _) (htexts _)
  cases hrel with
  | some hsame => exact hsame

end Generics.Registry
