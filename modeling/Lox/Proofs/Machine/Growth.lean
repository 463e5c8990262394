import Lox.Proofs.Machine.Effects

/-!
# How runs change the store

Whatever is run, a step only adds to the store: environments stay where they are and keep their
names, and functions keep their closures. A new function has the environment of its declaration
as its closure, possibly inside the one for a superclass; a method that gets a receiver is a
copy with one environment more.

## Main definitions

* `Store.Closes`: how the closure of a new function comes about
* `Store.Follows`: what one step makes of a store
* `Progress.Follows`: what a step leads to, and that it tells of no problem

## Main results

* `State.Effect.follows`: what each effect of a step makes of a store
* `Config.follows_step`: every step
* `Config.Steps.extends`, `Config.Steps.errors`, `Config.Steps.reports`: every run
-/

namespace Lox

namespace Store

variable {σ τ υ : Store} {e : EnvId}

/-- How the closure of a function that was made in an environment comes about. -/
inductive Closes (σ τ : Store) (e : EnvId) (fn : Function) : Prop where
  /-- The function was declared there. -/
  | here (h : fn.closure = e)
  /-- The function is a method of a class with a superclass that was declared there. -/
  | below (h : τ.parent? fn.closure = some e)
  /-- The function is a method that got a receiver. -/
  | bound {f : FunId} {fn₀ : Function} (h₀ : σ.function? f = some fn₀) (hdecl : fn.decl = fn₀.decl)
      (h : τ.parent? fn.closure = some fn₀.closure)

/-- What one step in an environment makes of a store. -/
structure Follows (σ τ : Store) (e : EnvId) : Prop where
  /-- Nothing is lost. -/
  growth : σ.Extends τ
  /-- The functions are old ones or have closures from here. -/
  created : ∀ f fn, τ.function? f = some fn → σ.function? f = some fn ∨ σ.Closes τ e fn

theorem Follows.of_functions (h : σ.Extends τ) (hf : τ.functions = σ.functions) :
    σ.Follows τ e :=
  ⟨h, fun f fn hfn => .inl (by rwa [function?, hf] at hfn)⟩

theorem Follows.refl (σ : Store) (e : EnvId) : σ.Follows σ e := .of_functions (.refl σ) rfl

/-- A function is an added one or was there before. -/
theorem function?_addFunction {g : Function} {f : FunId} {fn : Function}
    (h : (σ.addFunction g).2.function? f = some fn) : fn = g ∨ σ.function? f = some fn := by
  by_cases hf : f = (σ.addFunction g).1
  · subst hf
    simp only [function?_addFunction_self, Option.some.injEq] at h
    exact .inl h.symm
  · exact .inr (by rwa [function?_addFunction_of_ne σ g hf] at h)

theorem extends_addMethods (initializers : Bool) (table : Table FunId)
    (decls : List (FunDecl Occurrence)) :
    σ.Extends (σ.addMethods e initializers table decls).2 := by
  induction decls generalizing σ table with
  | nil => exact .refl σ
  | cons decl rest ih => exact (extends_addFunction _).trans (ih _)

/-- Methods have the environment of their class as their closure. -/
theorem function?_addMethods {initializers : Bool} {table : Table FunId}
    {decls : List (FunDecl Occurrence)} {f : FunId} {fn : Function}
    (h : (σ.addMethods e initializers table decls).2.function? f = some fn) :
    fn.closure = e ∨ σ.function? f = some fn := by
  induction decls generalizing σ table with
  | nil => exact .inr h
  | cons decl rest ih =>
    rcases ih h with h | h
    · exact .inl h
    · rcases function?_addFunction h with rfl | h
      · exact .inl rfl
      · exact .inr h

theorem extends_copyFor (fn : Function) (v : Value) : σ.Extends (σ.copyFor fn v).2 :=
  (extends_addEnvironment _).trans extends_define

/-- A method that gets a receiver. -/
theorem follows_realize {p : Property}
    (hp : ∀ fn v, p = .method fn v → ∃ f, σ.function? f = some fn) :
    σ.Follows (σ.realize p).2 e := by
  cases p with
  | field v => exact .refl σ e
  | method fn v =>
    refine ⟨(extends_copyFor fn v).trans (extends_addFunction _), fun g fn' h => ?_⟩
    rcases function?_addFunction h with rfl | h
    · obtain ⟨f, hf⟩ := hp fn v rfl
      refine .inr (.bound hf rfl ?_)
      exact (parent?_define ..).trans (parent?_addEnvironment_self _)
    · exact .inl h

/-- The methods of a new class. -/
theorem follows_makeClass (name : String) (s : Option ClassId)
    (statics methods : List (FunDecl Occurrence)) :
    σ.Follows (σ.makeClass e name s statics methods).2 e := by
  have hinner : σ.Extends (σ.enterClass e s).2 ∧ (σ.enterClass e s).2.functions = σ.functions ∧
      ((σ.enterClass e s).1 = e ∨ (σ.enterClass e s).2.parent? (σ.enterClass e s).1 = some e) := by
    cases s with
    | none => exact ⟨.refl σ, rfl, .inl rfl⟩
    | some c => exact ⟨(extends_addEnvironment _).trans extends_define, rfl, .inr
        ((parent?_define ..).trans (parent?_addEnvironment_self _))⟩
  obtain ⟨hext, hsame, hclosure⟩ := hinner
  -- the closures of all methods are the inner environment
  have hmethods := extends_addMethods (σ := (σ.enterClass e s).2) (e := (σ.enterClass e s).1) true
    .empty methods
  have hstatics := extends_addMethods
    (σ := ((σ.enterClass e s).2.addMethods (σ.enterClass e s).1 true .empty methods).2)
    (e := (σ.enterClass e s).1) false .empty statics
  have htail : (σ.enterClass e s).2.Extends (σ.makeClass e name s statics methods).2 :=
    hmethods.trans (hstatics.trans (extends_addClass _))
  refine ⟨hext.trans htail, fun f fn h => ?_⟩
  have hnew : fn.closure = (σ.enterClass e s).1 ∨ (σ.enterClass e s).2.function? f = some fn := by
    rcases function?_addMethods h with h | h
    · exact .inl h
    · exact function?_addMethods h
  rcases hnew with hfn | h
  · rcases hclosure with hclosure | hclosure
    · exact .inr (.here (hfn.trans hclosure))
    · exact .inr (.below (by rw [hfn]; exact htail.parents hclosure))
  · exact .inl (by rwa [function?, hsame] at h)

end Store

/-! ## Steps -/

/-- What a step from a state makes of the store, and that it tells of no problem. -/
structure Progress.Follows (p : Progress) (st : State) : Prop where
  /-- The step only adds to the store. -/
  store : st.store.Follows p.state.store st.environment
  /-- Nothing that is seen is a runtime error or a report. -/
  quiet : ∀ event ∈ p.event?, event.error? = none ∧ event.report? = none

namespace State

variable {st : State}

/-- A call makes no function. -/
theorem follows_enterFunction (st : State) (fn : Function) (arguments : List Value) :
    st.store.Extends (st.enterFunction fn arguments).store ∧
      (st.enterFunction fn arguments).store.functions = st.store.functions :=
  ⟨(Store.extends_addEnvironment _).trans Store.extends_defineAll, Store.functions_defineAll⟩

theorem follows_declareFunction (decl : FunDecl Occurrence) :
    st.store.Follows (st.declareFunction decl).store st.environment := by
  refine ⟨(Store.extends_addFunction _).trans Store.extends_define, fun f fn hfn => ?_⟩
  rcases Store.function?_addFunction hfn with rfl | h
  · exact .inr (.here rfl)
  · exact .inl h

/-- The name of a class is set before the class is made and once more afterwards. -/
theorem follows_declareClass (name : String) (s : Option ClassId)
    (statics methods : List (FunDecl Occurrence)) :
    st.store.Follows (st.declareClass name s statics methods).2.store st.environment := by
  have hfirst : st.store.Extends (st.store.define st.environment name .nil) :=
    Store.extends_define
  obtain ⟨hmake, hcreated⟩ := Store.follows_makeClass
    (σ := st.store.define st.environment name .nil) (e := st.environment) name s statics methods
  have hlast : ((st.store.define st.environment name .nil).makeClass st.environment name s statics
      methods).2.Extends (st.declareClass name s statics methods).2.store :=
    Store.extends_define
  refine ⟨hfirst.trans (hmake.trans hlast), fun f fn hfn => ?_⟩
  rcases hcreated f fn hfn with h | ⟨h | h | ⟨h₀, hdecl, h⟩⟩
  · exact .inl h
  · exact .inr (.here h)
  · exact .inr (.below (hlast.parents h))
  · exact .inr (.bound h₀ hdecl (hlast.parents h))

/-- What each effect of a step makes of a store. -/
theorem Effect.follows {c : Control} {τ : Store} (h : st.Effect c τ) :
    st.store.Follows τ st.environment := by
  cases h with
  | same => exact .refl _ _
  | assign | var | nilVar => exact .of_functions Store.extends_define rfl
  | newVar => exact .of_functions (Store.extends_define.trans Store.extends_define) rfl
  | block => exact .of_functions (Store.extends_addEnvironment _) rfl
  | function => exact follows_declareFunction _
  | «class» | subclass => exact follows_declareClass _ _ _ _
  | setField i => exact .of_functions (Store.extends_setField i) rfl
  | realize hp => exact Store.follows_realize hp
  | call fn arguments =>
    obtain ⟨hext, hsame⟩ := st.follows_enterFunction fn arguments
    exact .of_functions hext hsame
  | addInstance cls => exact .of_functions (Store.extends_addInstance cls) rfl
  | copy cls fn v =>
    exact .of_functions ((Store.extends_addInstance cls).trans (Store.extends_copyFor fn v)) rfl
  | construct cls fn copy v arguments =>
    -- the copy that is called is no function of the store
    obtain ⟨hext, hsame⟩ :=
      ((st.addInstance cls).2.copyFor fn v).2.follows_enterFunction copy arguments
    have hbefore : st.store.Extends ((st.addInstance cls).2.copyFor fn v).2.store :=
      (Store.extends_addInstance cls).trans (Store.extends_copyFor fn v)
    exact .of_functions (hbefore.trans hext) hsame

end State

namespace Config

variable {setup : Setup} {c d : Config} {t : Transcript}

/-- What every step makes of the store. -/
theorem follows_step (c : Config) (setup : Setup) : (c.step setup).Follows c.state :=
  ⟨(effects_step c setup).store.follows, (effects_step c setup).quiet⟩

/-- A run only adds to the store. -/
theorem Steps.extends (h : Steps setup c t d) : c.state.store.Extends d.state.store := by
  induction h with
  | refl c => exact .refl _
  | @step a b c event t first _ ih =>
    have hfirst := (follows_step a setup).store.growth
    rw [first] at hfirst
    exact hfirst.trans ih

theorem Steps.quiet (h : Steps setup c t d) :
    ∀ event ∈ t, event.error? = none ∧ event.report? = none := by
  induction h with
  | refl c => simp
  | @step a b c event t first _ ih =>
    have hfirst := (follows_step a setup).quiet
    rw [first] at hfirst
    intro x hx
    rcases List.mem_append.1 hx with hx | hx
    · exact hfirst x (by simpa [Progress.event?] using hx)
    · exact ih x hx

/-- Nothing that is seen before the end of a run is a runtime error. -/
theorem Steps.errors (h : Steps setup c t d) : Transcript.errors t = [] :=
  List.filterMap_eq_nil_iff.2 fun x hx => (h.quiet x hx).1

/-- Nothing that is seen of a run is a report. -/
theorem Steps.reports (h : Steps setup c t d) : Transcript.reports t = [] :=
  List.filterMap_eq_nil_iff.2 fun x hx => (h.quiet x hx).2

end Config

end Lox
