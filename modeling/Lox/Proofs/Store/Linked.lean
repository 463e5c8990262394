import Lox.Proofs.Store.Evolution

/-!
# Stores without dangling references

Objects refer to one another: an environment to the one around it and to the values of its
variables, a function to its closure, a class to its superclass and its methods, an instance to its
class and to the values of its fields. In a linked store all of these are in the store. An
environment is inside an earlier one and a class inherits from an earlier one, since both are named
when the new object is made and never afterwards.

## Main definitions

* `Value.objects`, `Store.Property.objects`: what values and properties refer to
* `Store.Linked`: a store in which nothing dangles
* `Store.Adds`: what is new in a store refers to objects of it
* `Store.Advances`: one linked store comes from another by changes

## Main results

* `Store.Linked.define` and its like: every change that is given objects of the store
* `Store.Linked.realize`, `Store.Linked.makeClass`: methods that get receivers, and classes
* `Store.Linked.property`, `Store.Linked.superMethod`: what is found is in the store
-/

namespace Lox

/-- The objects that a value refers to. -/
def Value.objects : Value → List Object
  | .function f => [.function f]
  | .class c => [.class c]
  | .instance i => [.instance i]
  | _ => []

/-- A number that an operation makes refers to nothing. -/
@[simp] theorem Value.objects_made {n : Nat} {v : Value} : (v.made n).objects = v.objects := by
  cases v <;> rfl

namespace Store

/-- The objects that a property refers to. -/
def Property.objects : Property → List Object
  | .field v => v.objects
  | .method fn receiver => .environment fn.closure :: receiver.objects

/-- Whether several objects are in the store. -/
def ContainsAll (σ : Store) (os : List Object) : Prop := ∀ o ∈ os, σ.Contains o

variable {σ τ υ : Store} {e : EnvId} {name : String} {v : Value} {o : Object} {os os' : List Object}
  {entries : List (String × Value)} {fn : Function}

@[simp] theorem containsAll_nil : σ.ContainsAll [] := by simp [ContainsAll]

@[simp] theorem containsAll_cons :
    σ.ContainsAll (o :: os) ↔ σ.Contains o ∧ σ.ContainsAll os := by
  simp [ContainsAll]

@[simp] theorem containsAll_append :
    σ.ContainsAll (os ++ os') ↔ σ.ContainsAll os ∧ σ.ContainsAll os' := by
  simp [ContainsAll, or_imp, forall_and]

theorem Evolves.has (h : σ.Evolves τ) (he : σ.Has e) : τ.Has e := (h.parents he).1

theorem Evolves.containsAll (h : σ.Evolves τ) (hos : σ.ContainsAll os) : τ.ContainsAll os :=
  fun o ho => h.contains (hos o ho)

/-- Nothing in the store dangles, and what is outside or above an object is older. -/
structure Linked (σ : Store) : Prop where
  /-- There are globals. -/
  globals : σ.Has Store.globals
  /-- The globals alone are outermost. -/
  outermost : ∀ {e : EnvId}, σ.Has e → (σ.parent? e = none ↔ e = Store.globals)
  /-- An environment is inside an earlier one. -/
  parents : ∀ {e p : EnvId}, σ.parent? e = some p → p.index < e.index
  /-- Variables. -/
  bindings : ∀ {e : EnvId} {name : String} {v : Value}, σ.binding? e name = some v →
    σ.ContainsAll v.objects
  /-- Closures. -/
  closures : ∀ {f : FunId} {fn : Function}, σ.function? f = some fn → σ.Has fn.closure
  /-- A class inherits from an earlier one. -/
  superclasses : ∀ {c s : ClassId}, σ.superclass? c = some s → s.index < c.index
  /-- Methods. -/
  methods : ∀ {static : Bool} {c : ClassId} {f : FunId}, σ.Declares static c f →
    σ.Contains (.function f)
  /-- Classes of instances. -/
  instances : ∀ {i : InstanceId} {inst : Lox.Instance}, σ.instance? i = some inst →
    σ.Contains (.class inst.classId)
  /-- Fields. -/
  fields : ∀ {i : InstanceId} {name : String} {v : Value}, σ.field? i name = some v →
    σ.ContainsAll v.objects

/-- What is in a store was in another one or refers to objects of the store. -/
structure Adds (σ τ : Store) : Prop where
  /-- A new environment is inside an earlier one. -/
  environments : ∀ e, τ.Has e → σ.Has e ∨ ∃ p, τ.parent? e = some p ∧ p.index < e.index := by
    exact fun _ => .inl
  /-- Variables. -/
  bindings : ∀ e name v, τ.binding? e name = some v →
    σ.binding? e name = some v ∨ τ.ContainsAll v.objects := by exact fun _ _ _ => .inl
  /-- Closures. -/
  functions : ∀ f fn, τ.function? f = some fn → σ.function? f = some fn ∨ τ.Has fn.closure := by
    exact fun _ _ => .inl
  /-- A new class inherits from an earlier one, and its methods are there. -/
  classes : ∀ c cls, τ.class? c = some cls → σ.class? c = some cls ∨
    (∀ s, cls.superclass = some s → s.index < c.index) ∧
      ∀ static name f, (cls.table static).find? name = some f → τ.Contains (.function f) := by
    exact fun _ _ => .inl
  /-- Classes of instances. -/
  instances : ∀ i inst, τ.instance? i = some inst →
    (∃ inst', σ.instance? i = some inst' ∧ inst'.classId = inst.classId) ∨
      τ.Contains (.class inst.classId) := by exact fun _ inst h => .inl ⟨inst, h, rfl⟩
  /-- Fields. -/
  fields : ∀ i name v, τ.field? i name = some v →
    σ.field? i name = some v ∨ τ.ContainsAll v.objects := by exact fun _ _ _ => .inl

/-- One store comes from another by changes, and nothing in it dangles. -/
structure Advances (σ τ : Store) : Prop where
  /-- Nothing dangles. -/
  linked : τ.Linked
  /-- Objects keep what they were made with. -/
  evolves : σ.Evolves τ

theorem Advances.trans (h : σ.Advances τ) (h' : τ.Advances υ) : σ.Advances υ :=
  ⟨h'.linked, h.evolves.trans h'.evolves⟩

/-- A class declares the methods of its tables. -/
theorem Linked.of_class? (h : σ.Linked) {c : ClassId} {cls : Class} (hc : σ.class? c = some cls) :
    (∀ s, cls.superclass = some s → s.index < c.index) ∧
      ∀ static name f, (cls.table static).find? name = some f → σ.Contains (.function f) := by
  constructor
  · intro s hs
    apply h.superclasses
    rw [superclass?, hc]
    exact hs
  · intro static name f hf
    exact h.methods ⟨cls, name, hc, hf⟩

/-- What is new refers to objects of the store, and the rest did so before. -/
theorem Linked.advances (h : σ.Linked) (hev : σ.Evolves τ) (hadds : σ.Adds τ) : σ.Advances τ := by
  refine ⟨⟨hev.has h.globals, ?outermost, ?parents, ?bindings, ?closures, ?superclasses, ?methods,
    ?instances, ?fields⟩, hev⟩
  -- each kind of object is old, and stays what it was, or new
  case outermost =>
    intro e he
    rcases hadds.environments e he with hold | ⟨p, hp, hlt⟩
    · rw [(hev.parents hold).2]
      exact h.outermost hold
    · -- nothing is earlier than the globals
      refine iff_of_false (by simp [hp]) ?_
      rintro rfl
      exact Nat.not_lt_zero _ hlt
  case parents =>
    intro e p hp
    rcases hadds.environments e (has_of_parent? hp) with hold | ⟨q, hq, hlt⟩
    · exact h.parents (by rw [← (hev.parents hold).2, hp])
    · obtain rfl := Option.some.inj (hp.symm.trans hq)
      exact hlt
  case bindings =>
    intro e name v hv
    exact (hadds.bindings e name v hv).elim (fun hold => hev.containsAll (h.bindings hold)) id
  case closures =>
    intro f fn hfn
    exact (hadds.functions f fn hfn).elim (fun hold => hev.has (h.closures hold)) id
  case superclasses =>
    intro c s hs
    obtain ⟨cls, hcls, hsuper⟩ := Option.bind_eq_some_iff.1 hs
    rcases hadds.classes c cls hcls with hold | ⟨hnew, -⟩
    · exact (h.of_class? hold).1 s hsuper
    · exact hnew s hsuper
  case methods =>
    rintro static c f ⟨cls, name, hcls, hf⟩
    rcases hadds.classes c cls hcls with hold | ⟨-, hnew⟩
    · exact hev.contains ((h.of_class? hold).2 static name f hf)
    · exact hnew static name f hf
  case instances =>
    intro i inst hi
    rcases hadds.instances i inst hi with ⟨inst', hold, heq⟩ | hnew
    · exact heq ▸ hev.contains (h.instances hold)
    · exact hnew
  case fields =>
    intro i name v hv
    exact (hadds.fields i name v hv).elim (fun hold => hev.containsAll (h.fields hold)) id

/-! ## Changes -/

namespace Linked

variable (h : σ.Linked)

include h

theorem refl : σ.Advances σ := ⟨h, .refl σ⟩

theorem define (hv : σ.ContainsAll v.objects) : σ.Advances (σ.define e name v) := by
  refine h.advances evolves_define { environments := ?_, bindings := ?_ }
  · intro a ha
    exact .inl (has_define.1 ha)
  · intro a m w hw
    -- in the environment of the variable only the variable has a new value
    unfold binding? at hw ⊢
    rw [environment?_define] at hw
    split at hw
    · cases henv : σ.environment? a with
      | none => simp [henv] at hw
      | some env =>
        simp only [henv, Option.map_some, Option.bind_some, Table.find?_set] at hw ⊢
        split at hw
        · cases hw
          exact .inr (evolves_define.containsAll hv)
        · exact .inl hw
    · exact .inl hw

theorem defineAll (hall : ∀ x ∈ entries, σ.ContainsAll x.2.objects) :
    σ.Advances (σ.defineAll e entries) := by
  induction entries generalizing σ with
  | nil => exact h.refl
  | cons x rest ih =>
    have hfirst : σ.Advances (σ.define e x.1 x.2) := h.define (hall x (List.mem_cons_self ..))
    refine hfirst.trans (ih hfirst.linked fun y hy => ?_)
    exact evolves_define.containsAll (hall y (List.mem_cons_of_mem _ hy))

theorem addEnvironment {p : EnvId} (hp : σ.Has p) : σ.Advances (σ.addEnvironment (some p)).2 := by
  refine h.advances (evolves_addEnvironment _) { environments := ?_, bindings := ?_ }
  · intro e he
    by_cases hnew : e = (σ.addEnvironment (some p)).1
    · subst hnew
      exact .inr ⟨p, parent?_addEnvironment_self _, hp⟩
    · left
      have hle : e.index < σ.environments.size + 1 := by simpa [Has] using he
      have hne : e.index ≠ σ.environments.size := fun heq => hnew (by cases e; exact congrArg _ heq)
      exact Nat.lt_of_le_of_ne (Nat.le_of_lt_succ hle) hne
  · intro a m w hw
    exact .inl (by simpa using hw)

theorem addFunction (fn : Function) (hfn : σ.Has fn.closure) :
    σ.Advances (σ.addFunction fn).2 := by
  refine h.advances (evolves_addFunction fn) { functions := ?_ }
  intro g fn' hg
  by_cases hnew : g = (σ.addFunction fn).1
  · subst hnew
    rw [function?_addFunction_self] at hg
    cases hg
    exact .inr hfn
  · rw [function?_addFunction_of_ne σ fn hnew] at hg
    exact .inl hg

theorem addClass {cls : Class} (hsuper : ∀ s, cls.superclass = some s → σ.Contains (.class s))
    (hmethods : ∀ static name f, (cls.table static).find? name = some f →
      σ.Contains (.function f)) : σ.Advances (σ.addClass cls).2 := by
  refine h.advances (evolves_addClass cls) { classes := ?_ }
  intro c found hc
  by_cases hnew : c = (σ.addClass cls).1
  · subst hnew
    rw [class?_addClass_self] at hc
    cases hc
    right
    -- the superclass was there before, so it is the older one
    refine ⟨fun s hs => ?_, hmethods⟩
    obtain ⟨above, habove⟩ := hsuper s hs
    exact (Array.getElem?_eq_some_iff.1 habove).1
  · rw [class?_addClass_of_ne σ cls hnew] at hc
    exact .inl hc

theorem addInstance {c : ClassId} (hc : σ.Contains (.class c)) :
    σ.Advances (σ.addInstance c).2 := by
  refine h.advances (evolves_addInstance c) { instances := ?_, fields := ?_ }
  · intro i inst hi
    by_cases hnew : i = (σ.addInstance c).1
    · subst hnew
      rw [instance?_addInstance_self] at hi
      cases hi
      exact .inr hc
    · rw [instance?_addInstance_of_ne σ c hnew] at hi
      exact .inl ⟨inst, hi, rfl⟩
  -- a new instance has no fields
  · intro i m w hw
    exact .inl (by simpa using hw)

theorem setField {i : InstanceId} (hv : σ.ContainsAll v.objects) :
    σ.Advances (σ.setField i name v) := by
  refine h.advances (evolves_setField i) { instances := ?_, fields := ?_ }
  · intro j inst hj
    simp only [instance?, Store.setField, Array.getElem?_modify] at hj ⊢
    split at hj
    · obtain ⟨inst', hinst', rfl⟩ := Option.map_eq_some_iff.1 hj
      exact .inl ⟨inst', hinst', rfl⟩
    · exact .inl ⟨inst, hj, rfl⟩
  · intro j m w hw
    rcases field?_setField hw with rfl | hold
    · exact .inr ((evolves_setField i).containsAll hv)
    · exact .inl hold

/-! ## Methods and classes -/

/-- The copy of a function that sees a receiver. -/
theorem copyFor (hfn : σ.Has fn.closure) (hv : σ.ContainsAll v.objects) :
    σ.Advances (σ.copyFor fn v).2 ∧ (σ.copyFor fn v).2.Has (σ.copyFor fn v).1.closure := by
  have hinner : σ.Advances (σ.addEnvironment (some fn.closure)).2 := h.addEnvironment hfn
  have hthis : (σ.addEnvironment (some fn.closure)).2.Advances (σ.copyFor fn v).2 :=
    hinner.linked.define (hinner.evolves.containsAll hv)
  exact ⟨hinner.trans hthis, has_define.2 (has_addEnvironment_self _)⟩

/-- The value of a property. -/
theorem realize {p : Property} (hp : σ.ContainsAll p.objects) :
    σ.Advances (σ.realize p).2 ∧ (σ.realize p).2.ContainsAll (σ.realize p).1.objects := by
  cases p with
  | field v => exact ⟨h.refl, hp⟩
  | method fn receiver =>
    obtain ⟨hfn, hreceiver⟩ := containsAll_cons.1 hp
    obtain ⟨hcopy, hclosure⟩ := h.copyFor hfn hreceiver
    refine ⟨hcopy.trans (hcopy.linked.addFunction _ hclosure), ?_⟩
    intro o ho
    obtain rfl := List.mem_singleton.1 ho
    exact ⟨_, function?_addFunction_self _ _⟩

/-- The methods of a class are declared one after another. -/
theorem addMethods (he : σ.Has e) (initializers : Bool) (table : Table FunId)
    (htable : ∀ name f, table.find? name = some f → σ.Contains (.function f))
    (decls : List (FunDecl Occurrence)) :
    σ.Advances (σ.addMethods e initializers table decls).2 ∧
      ∀ name f, (σ.addMethods e initializers table decls).1.find? name = some f →
        (σ.addMethods e initializers table decls).2.Contains (.function f) := by
  -- over the declarations, with a table whose functions are there so far
  induction decls generalizing σ table with
  | nil => exact ⟨h.refl, htable⟩
  | cons decl rest ih =>
    have hfirst := h.addFunction ⟨decl, e, initializers && decl.isInitName⟩ he
    obtain ⟨hrest, hfound⟩ := ih hfirst.linked (hfirst.evolves.has he) _ fun name f hf => by
      rw [Table.find?_set] at hf
      split at hf
      · cases hf
        exact ⟨_, function?_addFunction_self _ _⟩
      · exact hfirst.evolves.contains (htable name f hf)
    exact ⟨hfirst.trans hrest, hfound⟩

/-- The environment in which methods are declared. -/
theorem enterClass (he : σ.Has e) {s : Option ClassId}
    (hs : ∀ c, s = some c → σ.Contains (.class c)) :
    σ.Advances (σ.enterClass e s).2 ∧ (σ.enterClass e s).2.Has (σ.enterClass e s).1 := by
  cases s with
  | none => exact ⟨h.refl, he⟩
  | some c =>
    have hinner : σ.Advances (σ.addEnvironment (some e)).2 := h.addEnvironment he
    have hclass : (σ.addEnvironment (some e)).2.ContainsAll (Value.class c).objects := by
      simpa [Value.objects] using hinner.evolves.contains (hs c rfl)
    refine ⟨hinner.trans (hinner.linked.define hclass), ?_⟩
    exact has_define.2 (has_addEnvironment_self _)

/-- A class is made. -/
theorem makeClass (he : σ.Has e) (className : String) {s : Option ClassId}
    (hs : ∀ c, s = some c → σ.Contains (.class c)) (statics methods : List (FunDecl Occurrence)) :
    σ.Advances (σ.makeClass e className s statics methods).2 ∧
      (σ.makeClass e className s statics methods).2.Contains
        (.class (σ.makeClass e className s statics methods).1) := by
  obtain ⟨hinner, hhas⟩ := h.enterClass he hs
  obtain ⟨hfirst, hmethods⟩ := hinner.linked.addMethods hhas true .empty
    (fun name f hf => by simp at hf) methods
  obtain ⟨hsecond, hstatics⟩ := hfirst.linked.addMethods (hfirst.evolves.has hhas) false .empty
    (fun name f hf => by simp at hf) statics
  have hbefore := hinner.trans (hfirst.trans hsecond)
  refine ⟨hbefore.trans (hsecond.linked.addClass ?_ ?_), ⟨_, class?_addClass_self _ _⟩⟩
  · intro c hc
    exact hbefore.evolves.contains (hs c hc)
  · intro static name f hf
    cases static with
    | false => exact hsecond.evolves.contains (hmethods name f hf)
    | true => exact hstatics name f hf

/-! ## Look-ups -/

theorem getAt {d : Nat} (hv : σ.getAt e d name = .ok v) : σ.ContainsAll v.objects := by
  unfold Store.getAt valueIn at hv
  split at hv
  · split at hv
    · next hbinding => exact Except.ok.inj hv ▸ h.bindings hbinding
    · cases hv
  · cases hv

theorem get {t : Token} (hv : σ.get e t = .ok v) : σ.ContainsAll v.objects := by
  unfold Store.get valueIn at hv
  split at hv
  · split at hv
    · next hbinding => exact Except.ok.inj hv ▸ h.bindings hbinding
    · cases hv
  · cases hv

/-- A method that was looked up for a receiver. -/
theorem methodFor {found : Option FunId} {t : Token} {p : Property}
    (hv : σ.ContainsAll v.objects) (hp : σ.methodFor found v t = .ok p) :
    σ.ContainsAll p.objects := by
  cases found with
  | none => cases hp
  | some f =>
    cases hf : σ.function f with
    | error a => simp [Store.methodFor, hf, Except.map] at hp
    | ok fn =>
      simp only [Store.methodFor, hf, Except.map, Except.ok.injEq] at hp
      subst hp
      refine containsAll_cons.2 ⟨?_, hv⟩
      unfold function at hf
      split at hf
      · next hfn => exact Except.ok.inj hf ▸ h.closures hfn
      · cases hf

theorem property {t : Token} {p : Property} (hv : σ.ContainsAll v.objects)
    (hp : σ.property v t = .ok p) : σ.ContainsAll p.objects := by
  unfold Store.property at hp
  split at hp
  · split at hp
    · next hfield => exact Except.ok.inj hp ▸ h.fields hfield
    · exact h.methodFor hv hp
  · exact h.methodFor hv hp
  · cases hp

theorem superMethod {d : Nat} {t : Token} {p : Property} (hp : σ.superMethod e d t = .ok p) :
    σ.ContainsAll p.objects := by
  unfold Store.superMethod at hp
  split at hp
  · next hreceiver =>
    unfold methodAbove at hp
    split at hp
    · exact h.methodFor (h.getAt hreceiver) hp
    · exact h.methodFor (h.getAt hreceiver) hp
    · cases hp
  · cases hp
  · cases hp

end Linked

/-! ## New sessions -/

/-- Nothing dangles in the store of a new session. -/
theorem linked_fresh : Store.fresh.Linked := by
  have honly : ∀ {e : EnvId}, (({} : Store).addEnvironment none).2.Has e → e = Store.globals := by
    intro e he
    cases e
    exact congrArg EnvId.mk (Nat.lt_one_iff.1 he)
  -- there is one environment, and it holds nothing
  have hempty : (({} : Store).addEnvironment none).2.Linked := by
    refine ⟨has_addEnvironment_self none, ?outermost, ?parents, ?bindings, ?closures, ?superclasses,
      ?methods, ?instances, ?fields⟩
    case outermost =>
      intro e he
      obtain rfl := honly he
      exact iff_of_true rfl rfl
    case parents =>
      intro e p hp
      obtain rfl := honly (has_of_parent? hp)
      cases hp
    case bindings =>
      intro e name v hv
      rw [binding?_addEnvironment] at hv
      simp [binding?, environment?] at hv
    case closures =>
      intro f fn hfn
      simp [addEnvironment, function?] at hfn
    case superclasses =>
      intro c s hs
      simp [addEnvironment, superclass?, class?] at hs
    case methods =>
      rintro static c f ⟨cls, name, hcls, -⟩
      simp [addEnvironment, class?] at hcls
    case instances =>
      intro i inst hi
      simp [addEnvironment, instance?] at hi
    case fields =>
      intro i name v hv
      simp [addEnvironment, field?, instance?] at hv
  -- the native functions refer to no object
  refine (hempty.defineAll fun x hx => ?_).linked
  obtain ⟨n, -, rfl⟩ := List.mem_map.1 hx
  exact containsAll_nil

end Store

end Lox
