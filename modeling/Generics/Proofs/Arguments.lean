import Generics.Proofs.Calls
import Generics.Proofs.Casts
import Generics.Proofs.Receivers

/-! # Arguments and the declared bounds of class parameters

A method may take a value of one of its class's type parameters. What an argument is then compared with depends on the
receiver: with the declared bounds, if the receiver leaves its arguments open; else with what the receiver has for the
parameter, which kept to the declared bounds when the receiver was made. A type that keeps to a bound passes this on to
what is below it. A wildcard does not: it only has to leave room under the bound, and the argument is compared with the
wildcard alone. So an argument keeps to the declared bound unless it comes through a wildcard without an upper bound of
a class below it (`arguments_keep_bound_or_wildcard_lets_in`). -/

namespace Generics
set_option autoImplicit false

open Result

theorem Result.exists_step_of_foldlM {α β : Type} {f : β → α → Result β} {l : List α} {b b' : β}
    (h : l.foldlM f b = .ok b') {a : α} (ha : a ∈ l) : ∃ x y, f x a = .ok y := by
  induction l generalizing b with
  | nil => cases ha
  | cons x l ih =>
    rw [List.foldlM_cons, bind_eq_ok_iff] at h
    obtain ⟨next, hx, hl⟩ := h
    rcases List.mem_cons.1 ha with rfl | ha
    · exact ⟨b, next, hx⟩
    · exact ih hl ha

/-! ## Classes of types that are taken -/

namespace Store

variable {s : Store}

theorem Below.isSubclass_ne_false {b c : ClassId} (h : s.Below b c) : s.isSubclass b c ≠ .ok false := by
  intro hno
  cases (isSubclass_eq_ok hno).2 h

/-- A type with a class is compared with each upper bound of a wildcard. -/
theorem isAssignable_upper {lower upper : List Descriptor} {d u : Descriptor} {b : ClassId} (hd : d.raw? = some b)
    (h : s.isAssignable (.wildcard lower upper) d = .ok true) (hu : u ∈ upper) : s.isAssignable u d = .ok true := by
  have hother : (Descriptor.wildcard lower upper == d) = false := by
    refine Bool.eq_false_iff.2 fun hsame => ?_
    rw [← Descriptor.raw?_eq_of_beq hsame] at hd
    cases hd
  have hdown : (s.asks 127).assignable u d = .ok true := by
    change s.takes (s.asks 127) _ _ = _ at h
    simp only [takes, hother, Bool.false_eq_true, if_false] at h
    have hwithin := within_of_wildcardContains h
    cases d with
    | bare c => exact hwithin.1 u hu
    | applied owner c args => exact hwithin.1 u hu
    | var v => cases hd
    | wildcard lower' upper' => cases hd
  exact assignable_of_le (Nat.le_succ 127) hdown

theorem mem_ownVars_of_bound {v : TypeVar} {c : ClassId} {bound : Descriptor} (hv : v.scope = .ofClass c)
    (hbound : bound ∈ s.boundsOf v) : ∃ decl, s.get? c = some decl ∧ v ∈ decl.ownVars c := by
  unfold boundsOf bounds? at hbound
  rw [hv, paramsOf?] at hbound
  cases hc : s.get? c with
  | none => simp [hc] at hbound
  | some decl =>
    cases hp : findParam? decl.params v.name with
    | none => simp [hc, hp] at hbound
    | some param =>
      have hname : param.name = v.name := by simpa [findParam?] using List.find?_some hp
      refine ⟨decl, rfl, List.mem_map.2 ⟨param, List.mem_of_find?_eq_some hp, ?_⟩⟩
      rw [hname, ← hv]

end Store

/-! ## Receivers -/

namespace Key

variable {s : Store} {k : Key} {c : ClassId}

/-- The key is of the class on its own, or of the class with arguments that were checked. -/
def IsOf (s : Store) (c : ClassId) (k : Key) : Prop :=
  Key.bare s c = .ok k ∨ ∃ args, Key.generic s c args = .ok k

theorem raw?_of_generic {args : List Descriptor} (h : Key.generic s c args = .ok k) :
    k.descriptor.raw? = some c ∧ k.descriptor.vars = [] := by
  obtain ⟨t, ht, h⟩ := bind_eq_ok_iff.1 h
  obtain ⟨d, hd, hof⟩ := bind_eq_ok_iff.1 h
  obtain ⟨_, hresolved, c', _, rfl⟩ := freeze_eq_ok_iff.1 hof
  refine ⟨?_, hresolved rfl⟩
  obtain ⟨decl, _, ht⟩ := bind_eq_ok_iff.1 ht
  split at ht
  · cases ht
    cases args with
    | nil =>
      cases hd
      rfl
    | cons a args => cases hd
  · cases ht
    rw [Store.actualize_queue_eq, bind_eq_ok_iff] at hd
    obtain ⟨r, _, hd⟩ := hd
    split at hd
    · cases hd
      rfl
    · cases hd

theorem IsOf.raw? (h : k.IsOf s c) : k.descriptor.raw? = some c := by
  rcases h with h | ⟨args, h⟩
  · obtain ⟨_, _, _, _, rfl⟩ := freeze_eq_ok_iff.1 h
    rfl
  · exact (raw?_of_generic h).1

theorem IsOf.closed (h : k.IsOf s c) : k.descriptor.vars = [] := by
  rcases h with h | ⟨args, h⟩
  · obtain ⟨_, _, _, _, rfl⟩ := freeze_eq_ok_iff.1 h
    rfl
  · exact (raw?_of_generic h).2

/-- What a receiver has for a parameter of its class: nothing if it is the class on its own, else a type without
variables. -/
theorem IsOf.get?_bindings (h : k.IsOf s c) {σ : Substitution} (hσ : s.bindingsOf k.descriptor = .ok σ)
    {decl : ClassDecl} (hc : s.get? c = some decl) {v : TypeVar} (hv : v ∈ decl.ownVars c) :
    σ.get? v = none ∨ ∃ a, σ.get? v = some a ∧ a.vars = [] := by
  have hraw := h.raw?
  have hclosed := h.closed
  cases hd : k.descriptor with
  | bare c' =>
    rw [hd] at hσ
    cases hσ
    exact .inl rfl
  | applied owner c' args =>
    rw [hd] at hσ hraw hclosed
    cases hraw
    have hnone : ∀ w ∈ (Descriptor.applied owner c args).vars, False := by simp [hclosed]
    obtain ⟨a, ha, hvars⟩ := Store.closesOver_bindingsFrom hnone hσ (.inr ⟨c, decl, .here owner args, hc, hv⟩)
    exact .inr ⟨a, ha, List.eq_nil_iff_forall_not_mem.2 hvars⟩
  | var w =>
    rw [hd] at hraw
    cases hraw
  | wildcard lower upper =>
    rw [hd] at hraw
    cases hraw

end Key

namespace Signature

variable {s : Store} {m : Signature} {receiver : Key}

/-! ## What was compared -/

theorem params_of_actualizeFor {seen : Signature} (hraw : receiver.descriptor.raw? = some m.owner)
    (h : m.actualizeFor s receiver = .ok seen) :
    ∃ σ, s.bindingsOf receiver.descriptor = .ok σ ∧ seen.params = m.params.map (·.subst σ) ∧
      ∀ v, Descriptor.var v ∈ m.params → s.Permits σ v := by
  rw [actualizeFor, Store.asSupertype_self hraw, ok_bind] at h
  obtain ⟨σ, hσ, h⟩ := bind_eq_ok_iff.1 h
  obtain ⟨params, hparams, h⟩ := bind_eq_ok_iff.1 h
  obtain ⟨returns, _, h⟩ := bind_eq_ok_iff.1 h
  cases h
  obtain ⟨hseen, htame⟩ := (mapM_eq_ok_iff (fun d _ e => Store.actualize_byName_eq_ok_iff) params).1 hparams
  refine ⟨σ, hσ, hseen, fun v hv => ?_⟩
  exact (htame _ hv).vars v (List.mem_singleton.2 rfl)

theorem argumentFits_of_checkArguments {args : List Key} (h : m.checkArguments s receiver args = .ok ()) :
    ∃ seen, m.actualizeFor s receiver = .ok seen ∧ ∀ (j : Nat) param arg, seen.params[j]? = some param →
      args[j]? = some arg → ∃ known known', m.argumentFits s known param arg = .ok (true, known') := by
  unfold checkArguments at h
  split at h
  · cases h
  · obtain ⟨seen, hseen, h⟩ := bind_eq_ok_iff.1 h
    obtain ⟨last, hlast, _⟩ := bind_eq_ok_iff.1 h
    refine ⟨seen, hseen, fun j param arg hparam harg => ?_⟩
    have hmem : (param, arg) ∈ seen.params.zip args :=
      List.mem_of_getElem? (List.getElem?_zip_eq_some.2 ⟨hparam, harg⟩)
    obtain ⟨known, next, hstep⟩ := exists_step_of_foldlM hlast hmem
    obtain ⟨⟨fits, known'⟩, hfits, hstep⟩ := bind_eq_ok_iff.1 hstep
    cases fits with
    | true => exact ⟨known, known', hfits⟩
    | false => cases hstep

/-- A type without variables takes the argument or refuses it, whatever is known. -/
theorem argumentFits_closed {known : Substitution} {param : Descriptor} {arg : Key} (hclosed : param.vars = []) :
    m.argumentFits s known param arg =
      s.isAssignable param arg.descriptor >>= fun fits => .ok (fits, known) := by
  have hno : param.hasVars = false := by simp [Descriptor.hasVars_eq, hclosed]
  cases param with
  | var v => simp [Descriptor.vars] at hclosed
  | bare c => simp only [argumentFits, hno, Bool.false_eq_true, if_false]; rfl
  | applied owner c args => simp only [argumentFits, hno, Bool.false_eq_true, if_false]; rfl
  | wildcard lower upper => simp only [argumentFits, hno, Bool.false_eq_true, if_false]; rfl

/-! ## The declared bound -/

section Bound

variable {v : TypeVar} {bound : Descriptor} {b : ClassId} {arg : Key}

theorem below_of_fitsErasedBounds (hbound : bound ∈ s.boundsOf v) (hraw : bound.raw? = some b) (harg : arg.MadeIn s)
    (h : fitsErasedBounds s v arg = .ok true) : s.Below arg.raw b := by
  have herased : Descriptor.bare b ∈ (s.boundsOf v).filterMap (·.erase?) :=
    List.mem_filterMap.2 ⟨bound, hbound, by rw [Descriptor.erase?, hraw]; rfl⟩
  exact Store.below_of_assignable rfl harg.raw?_eq (allM_eq_true_iff.1 h _ herased)

theorem below_of_fitsBound {a : Descriptor} {c : ClassId} (ha : a.raw? = some c) (hraw : bound.raw? = some b)
    (harg : arg.MadeIn s) (hfits : s.fitsBound a bound = .ok true)
    (h : s.isAssignable a arg.descriptor = .ok true) : s.Below arg.raw b := by
  have hbound : s.isAssignable bound a = .ok true := by
    cases a with
    | bare c' => exact hfits
    | applied owner c' args => exact hfits
    | var w => cases ha
    | wildcard lower upper => cases ha
  exact (Store.below_of_assignable ha harg.raw?_eq h).trans (Store.below_of_assignable hraw ha hbound)

/-- The receiver has a wildcard for the variable that leaves room under the bound, none of its upper bounds is of a
class below that of the bound, and the argument lies within it. -/
def LetsIn (s : Store) (receiver : Key) (v : TypeVar) (bound : Descriptor) (b : ClassId) (arg : Key) : Prop :=
  ∃ σ lower upper, s.bindingsOf receiver.descriptor = .ok σ ∧ σ.get? v = some (.wildcard lower upper) ∧
    s.leavesRoom ⟨lower, upper⟩ bound = .ok true ∧
    (∀ u ∈ upper, ∀ c, u.raw? = some c → s.isSubclass c b ≠ .ok true) ∧
    s.isAssignable (.wildcard lower upper) arg.descriptor = .ok true

/-- Through a wildcard, an argument keeps to the bound if one of the upper bounds does. -/
theorem below_or_letsIn {σ : Substitution} {lower upper : List Descriptor}
    (hσ : s.bindingsOf receiver.descriptor = .ok σ) (hv : σ.get? v = some (.wildcard lower upper))
    (hroom : s.leavesRoom ⟨lower, upper⟩ bound = .ok true) (harg : arg.MadeIn s)
    (h : s.isAssignable (.wildcard lower upper) arg.descriptor = .ok true) :
    s.Below arg.raw b ∨ LetsIn s receiver v bound b arg := by
  by_cases hupper : ∃ u ∈ upper, ∃ c, u.raw? = some c ∧ s.isSubclass c b = .ok true
  · obtain ⟨u, hu, c, hc, hbelow⟩ := hupper
    have hfits := Store.isAssignable_upper harg.raw?_eq h hu
    exact .inl ((Store.below_of_assignable hc harg.raw?_eq hfits).trans ((Store.isSubclass_eq_ok hbelow).1 rfl))
  · refine .inr ⟨σ, lower, upper, hσ, hv, hroom, fun u hu c hc hbelow => ?_, h⟩
    exact hupper ⟨u, hu, c, hc, hbelow⟩

end Bound

theorem checkArguments_singleton {seen : Signature} {arg : Key} {param : Descriptor} (harity : m.params.length = 1)
    (hseen : m.actualizeFor s receiver = .ok seen) (hparams : seen.params = [param]) (hclosed : param.vars = []) :
    m.checkArguments s receiver [arg] = .ok () ↔ s.isAssignable param arg.descriptor = .ok true := by
  rw [checkArguments, arity, harity, if_neg (fun h => h rfl), hseen]
  simp only [ok_bind, hparams, List.zip_cons_cons, List.zip_nil_left, List.foldlM_cons, List.foldlM_nil,
    argumentFits_closed hclosed]
  cases hanswer : s.isAssignable param arg.descriptor with
  | error fault => exact ⟨fun h => (by cases h), fun h => (by cases h)⟩
  | ok fits =>
    cases fits with
    | true => exact ⟨fun _ => rfl, fun _ => rfl⟩
    | false => exact ⟨fun h => (by cases h), fun h => (by cases h)⟩

/-- An accepted argument keeps to the declared bound, unless a wildcard of the receiver lets it in; and where the
receiver has a wildcard, this alone decides. -/
theorem arguments_keep_bound_or_wildcard_lets_in (s : Store) (m : Signature) (receiver : Key)
    (hreceiver : receiver.IsOf s m.owner) (v : TypeVar) (hv : v.scope = .ofClass m.owner) (bound : Descriptor)
    (b : ClassId) (hbound : bound ∈ s.boundsOf v) (hraw : bound.raw? = some b) (hclosed : bound.vars = []) :
    (∀ args (j : Nat) arg, m.params[j]? = some (.var v) → args[j]? = some arg → arg.MadeIn s →
      m.checkArguments s receiver args = .ok () →
        s.isSubclass arg.raw b ≠ .ok false ∨ LetsIn s receiver v bound b arg) ∧
    ∀ σ lower upper seen arg, s.bindingsOf receiver.descriptor = .ok σ → σ.get? v = some (.wildcard lower upper) →
      m.params = [.var v] → m.actualizeFor s receiver = .ok seen →
        (m.checkArguments s receiver [arg] = .ok () ↔
          s.isAssignable (.wildcard lower upper) arg.descriptor = .ok true) := by
  obtain ⟨decl, hc, hown⟩ := Store.mem_ownVars_of_bound hv hbound
  constructor
  · intro args j arg hparam hargs harg h
    obtain ⟨seen, hseen, hfits⟩ := argumentFits_of_checkArguments h
    obtain ⟨σ, hσ, hparams, hpermits⟩ := params_of_actualizeFor hreceiver.raw? hseen
    have hpermit := hpermits v (List.mem_of_getElem? hparam)
    have hseenParam : seen.params[j]? = some ((σ.get? v).getD (.var v)) := by
      rw [hparams, List.getElem?_map, hparam]
      rfl
    obtain ⟨known, known', hfit⟩ := hfits j _ arg hseenParam hargs
    rcases hreceiver.get?_bindings hσ hc hown with hget | ⟨a, hget, haclosed⟩
    · rw [hget, Option.getD_none, argumentFits, if_neg (by simp [hv, scope])] at hfit
      obtain ⟨fits, hfits, heq⟩ := bind_eq_ok_iff.1 hfit
      cases heq
      exact .inl (below_of_fitsErasedBounds hbound hraw harg hfits).isSubclass_ne_false
    · rw [hget, Option.getD_some, argumentFits_closed haclosed] at hfit
      obtain ⟨fits, hfits, heq⟩ := bind_eq_ok_iff.1 hfit
      cases heq
      have hkeeps := Store.fitsBound_of_checkBounds (hpermit a hget) hbound hclosed
      cases a with
      | bare c => exact .inl (below_of_fitsBound rfl hraw harg hkeeps hfits).isSubclass_ne_false
      | applied owner c types => exact .inl (below_of_fitsBound rfl hraw harg hkeeps hfits).isSubclass_ne_false
      | var w => simp [Descriptor.vars] at haclosed
      | wildcard lower upper =>
        exact (below_or_letsIn hσ hget hkeeps harg hfits).imp_left Store.Below.isSubclass_ne_false
  · intro σ lower upper seen arg hσ hget hparams hseen
    obtain ⟨σ', hσ', hseenParams, _⟩ := params_of_actualizeFor hreceiver.raw? hseen
    cases hσ.symm.trans hσ'
    have hwildcard : (Descriptor.wildcard lower upper).vars = [] := by
      rcases hreceiver.get?_bindings hσ hc hown with hnone | ⟨a, ha, haclosed⟩
      · cases hget.symm.trans hnone
      · cases hget.symm.trans ha
        exact haclosed
    refine checkArguments_singleton (by rw [hparams]; rfl) hseen ?_ hwildcard
    rw [hseenParams, hparams, List.map_singleton, Descriptor.subst, hget, Option.getD_some]

/-- A method of `NumberBox<T extends Number>` that takes a `T`. -/
def setter : Signature := ⟨⟨7⟩, "set", [], [.var ⟨.ofClass ⟨7⟩, "T"⟩], .bare ⟨1⟩⟩

def textKey : Key := ⟨.bare ⟨4⟩, ⟨4⟩, "Text", false⟩

def openBox : Key := ⟨.bare ⟨7⟩, ⟨7⟩, "NumberBox", false⟩

/-- Through `NumberBox<?>` the method takes a `Text`, which is no `Number`, and takes all that `?` does; through
`NumberBox` it takes nothing but numbers and refuses the `Text`. -/
theorem number_box_lets_text_in :
    (setter.checkArguments shapes (shapesKey ⟨7⟩ [.unbounded]) [textKey] = .ok () ∧
      shapes.isSubclass ⟨4⟩ ⟨2⟩ = .ok false ∧
      LetsIn shapes (shapesKey ⟨7⟩ [.unbounded]) ⟨.ofClass ⟨7⟩, "T"⟩ (.bare ⟨2⟩) ⟨2⟩ textKey ∧
      ∀ arg : Key, setter.checkArguments shapes (shapesKey ⟨7⟩ [.unbounded]) [arg] = .ok () ↔
        shapes.isAssignable .unbounded arg.descriptor = .ok true) ∧
    (∀ arg : Key, arg.MadeIn shapes → setter.checkArguments shapes openBox [arg] = .ok () →
      shapes.isSubclass arg.raw ⟨2⟩ ≠ .ok false) ∧
    setter.checkArguments shapes openBox [textKey] = .error (.castRefused "T" "Text") := by
  have hbound : Descriptor.bare ⟨2⟩ ∈ shapes.boundsOf ⟨.ofClass ⟨7⟩, "T"⟩ := .head _
  refine ⟨?_, ?_, by rfl⟩
  · have haccepted : setter.checkArguments shapes (shapesKey ⟨7⟩ [.unbounded]) [textKey] = .ok () := by rfl
    have hno : shapes.isSubclass ⟨4⟩ ⟨2⟩ = .ok false := by decide +kernel
    obtain ⟨hkeeps, hexact⟩ := arguments_keep_bound_or_wildcard_lets_in shapes setter (shapesKey ⟨7⟩ [.unbounded])
      (.inr ⟨[.unbounded], by rfl⟩) ⟨.ofClass ⟨7⟩, "T"⟩ rfl (.bare ⟨2⟩) ⟨2⟩ hbound rfl rfl
    refine ⟨haccepted, hno, ?_, fun arg => hexact _ [] [] _ arg rfl rfl rfl rfl⟩
    exact (hkeeps [textKey] 0 textKey rfl rfl ⟨.bare ⟨4⟩, false, rfl⟩ haccepted).resolve_left fun h => h hno
  · intro arg harg haccepted
    obtain ⟨hkeeps, _⟩ := arguments_keep_bound_or_wildcard_lets_in shapes setter openBox (.inl rfl)
      ⟨.ofClass ⟨7⟩, "T"⟩ rfl (.bare ⟨2⟩) ⟨2⟩ hbound rfl rfl
    refine (hkeeps [arg] 0 arg rfl rfl harg haccepted).resolve_right ?_
    rintro ⟨σ, lower, upper, hσ, hget, _⟩
    cases hσ
    cases hget

end Signature

end Generics
