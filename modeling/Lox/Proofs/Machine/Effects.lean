import Lox.Machine.Run
import Lox.Proofs.Store.Lookups

/-!
# Effects of steps

Whatever a step is about, it changes the store in one of a few ways: a variable is set, an
environment is made for a block or for a call, a method gets a receiver, a function or a class is
declared, an instance is made, or a field is set. So what each of these changes keeps, every step
keeps.

## Main definitions

* `State.CallForm`: what a call may lead to
* `Progress.state`, `Progress.event?`: the state that a step leads to, and what can be seen of it
* `State.Effect`: what a step may make of the store
* `Progress.Effects`: what a step makes of the store, and that it tells of no problem

## Main results

* `Store.method_of_property`, `State.exists_of_initializer`: methods that are found are of the store
* `Config.effects_step`: every step
-/

namespace Lox

/-! ## Methods that are found -/

namespace Store

variable {σ : Store} {fn : Function} {t : Token} {v : Value} {p : Property}

theorem function?_of_function {f : FunId} (h : σ.function f = .ok fn) :
    σ.function? f = some fn := by
  unfold function at h
  split at h
  · next hf => cases h; exact hf
  · cases h

theorem method_of_methodFor {found : Option FunId} {receiver : Value}
    (h : σ.methodFor found receiver t = .ok p) (hp : p = .method fn v) :
    ∃ f, σ.function? f = some fn := by
  subst hp
  cases found with
  | none => cases h
  | some f =>
    cases hf : σ.function f with
    | error a => simp [methodFor, hf, Except.map] at h
    | ok g =>
      simp only [methodFor, hf, Except.map, Except.ok.injEq, Property.method.injEq] at h
      exact ⟨f, h.1 ▸ function?_of_function hf⟩

/-- A method that a property is found to be is one of the store. -/
theorem method_of_property {w : Value} (h : σ.property w t = .ok p) (hp : p = .method fn v) :
    ∃ f, σ.function? f = some fn := by
  unfold property at h
  split at h
  · split at h
    · subst hp
      cases h
    · exact method_of_methodFor h hp
  · exact method_of_methodFor h hp
  · cases h

theorem method_of_superMethod {e : EnvId} {d : Nat} (h : σ.superMethod e d t = .ok p)
    (hp : p = .method fn v) : ∃ f, σ.function? f = some fn := by
  unfold superMethod at h
  split at h
  · unfold methodAbove at h
    split at h
    · exact method_of_methodFor h hp
    · exact method_of_methodFor h hp
    · cases h
  · cases h
  · cases h

end Store

/-- The initializer of a class is the function that the search finds. -/
theorem State.exists_of_initializer {st : State} {c : ClassId} {fn : Function}
    (h : st.initializer c = .ok (some fn)) :
    ∃ f, st.store.findMethod? c "init" = some f ∧ st.store.function? f = some fn := by
  unfold initializer at h
  split at h
  · next f hfound =>
    cases hf : st.store.function f with
    | error a => simp [hf, Except.map] at h
    | ok fn' =>
      simp only [hf, Except.map, Except.ok.injEq, Option.some.injEq] at h
      exact ⟨f, hfound, h ▸ Store.function?_of_function hf⟩
  · cases h

/-- If a class has no initializer, then the search finds none. -/
theorem State.findMethod?_of_initializer {st : State} {c : ClassId}
    (h : st.initializer c = .ok none) : st.store.findMethod? c "init" = none := by
  unfold initializer at h
  split at h
  · next f hfound => cases hfn : st.store.function f <;> rw [hfn] at h <;> cases h
  · next hfound => exact hfound

/-! ## Forms of calls -/

namespace State

variable {st : State} {setup : Setup} {arguments : List Value} {paren : Token}

/-- The number of arguments that a class takes is that of the parameters of its initializer. -/
theorem classArity_of_initializer {c : ClassId} {init : Option Function}
    (h : st.initializer c = .ok init) :
    st.store.classArity c = (init.map (·.decl.arity)).getD 0 := by
  cases init with
  | none => rw [Store.classArity, findMethod?_of_initializer h, Option.map_none, Option.map_none]
  | some fn =>
    obtain ⟨f, hfound, hfn⟩ := exists_of_initializer h
    simp [Store.classArity, hfound, Store.functionArity, hfn]

/-- What a call of a value leads to, whatever waits for its value: it is refused, it has a value at
once, or a function is entered. -/
inductive CallForm (st : State) (setup : Setup) (arguments : List Value) (paren : Token) :
    Value → (ValueCont → Progress) → Prop where
  /-- The value cannot be called, or it takes another number of arguments. -/
  | refused {callee : Value} (h : st.store.arity? callee ≠ some arguments.length) :
      CallForm st setup arguments paren callee fun _ => .abort st (.atToken paren
        ((st.store.arity? callee).elim .notCallable (.wrongArity · arguments.length)))
  /-- There is no such function. -/
  | noFunction {f : FunId} {a : Abort} (h : st.store.function f = .error a) :
      CallForm st setup arguments paren (.function f) fun _ => .abort st a
  /-- The initializer of a class is not there. -/
  | noInitializer {c : ClassId} {a : Abort} (h : st.initializer c = .error a) :
      CallForm st setup arguments paren (.class c) fun _ => .abort st a
  /-- The clock is read. -/
  | clock : CallForm st setup arguments paren (.native .clock) fun k =>
      .deliver (st.readClock setup).2 (st.readClock setup).1 k
  /-- A class without an initializer is called. -/
  | bare {c : ClassId} (h : st.initializer c = .ok none) (hlength : arguments.length = 0) :
      CallForm st setup arguments paren (.class c) fun k =>
        .deliver (st.addInstance c).2 (.instance (st.addInstance c).1) k
  /-- A function is called. -/
  | function {f : FunId} {fn : Function} (h : st.store.function? f = some fn)
      (hlength : arguments.length = fn.decl.arity) :
      CallForm st setup arguments paren (.function f)
        (st.enter setup fn arguments (if fn.isInitializer then .receiver fn.closure else .returned))
  /-- A class is called, and its initializer is copied for the new instance. -/
  | initializer {c : ClassId} {fn : Function} (h : st.initializer c = .ok (some fn))
      (hlength : arguments.length = fn.decl.arity) :
      CallForm st setup arguments paren (.class c)
        (((st.addInstance c).2.copyFor fn (.instance (st.addInstance c).1)).2.enter setup
          ((st.addInstance c).2.copyFor fn (.instance (st.addInstance c).1)).1 arguments
          (.constructed (st.addInstance c).1))

theorem CallForm.congr {callee : Value} {call call' : ValueCont → Progress}
    (h : st.CallForm setup arguments paren callee call) (hcall : ∀ k, call' k = call k) :
    st.CallForm setup arguments paren callee call' := by
  rwa [funext hcall]

/-- A call of any value. -/
theorem callForm_call (st : State) (setup : Setup) (callee : Value) (arguments : List Value)
    (paren : Token) :
    st.CallForm setup arguments paren callee (st.call setup callee arguments paren) := by
  cases callee with
  | function f =>
    cases hf : st.store.function f with
    | error a => exact (CallForm.noFunction hf).congr fun k => by simp only [call, hf]
    | ok fn =>
      have hcall : ∀ k, st.call setup (.function f) arguments paren k =
          st.callFunction setup fn arguments paren k := fun k => by simp only [call, hf]
      have hfn := Store.function?_of_function hf
      by_cases hlength : arguments.length = fn.decl.arity
      · refine (CallForm.function hfn hlength).congr fun k => ?_
        rw [hcall, callFunction, if_pos hlength]
      · have harity : st.store.arity? (.function f) = some fn.decl.arity := by
          simp [Store.arity?, Store.functionArity, hfn]
        refine (CallForm.refused (by simpa [harity] using Ne.symm hlength)).congr fun k => ?_
        rw [hcall, callFunction, if_neg hlength, harity, Option.elim_some]
  | «class» c =>
    cases hinit : st.initializer c with
    | error a => exact (CallForm.noInitializer hinit).congr fun k => by simp only [call, hinit]
    | ok init =>
      have hcall : ∀ k, st.call setup (.class c) arguments paren k =
          st.callClass setup c init arguments paren k := fun k => by simp only [call, hinit]
      by_cases hlength : arguments.length = (init.map (·.decl.arity)).getD 0
      · have hmade : ∀ k, st.call setup (.class c) arguments paren k =
            st.construct setup c init arguments k := fun k => by
          simp only [hcall, callClass, if_pos hlength]
        cases init with
        | none => exact (CallForm.bare hinit hlength).congr hmade
        | some fn => exact (CallForm.initializer hinit hlength).congr hmade
      · have harity : st.store.arity? (.class c) = some ((init.map (·.decl.arity)).getD 0) :=
          congrArg some (classArity_of_initializer hinit)
        refine (CallForm.refused (by simpa [harity] using Ne.symm hlength)).congr fun k => ?_
        simp only [hcall, callClass, if_neg hlength, harity, Option.elim_some]
  | native n =>
    cases n
    by_cases hlength : arguments.length = Native.clock.arity
    · refine CallForm.clock.congr fun k => ?_
      simp only [call, callNative, if_pos hlength]
    · have harity : st.store.arity? (.native .clock) = some Native.clock.arity := rfl
      refine (CallForm.refused (by simpa [harity] using Ne.symm hlength)).congr fun k => ?_
      simp only [call, callNative, if_neg hlength, harity, Option.elim_some]
  | nil | bool | number | string | «instance» => exact .refused (by simp [Store.arity?])

end State

/-! ## Effects -/

namespace Progress

/-- The state that a step leads to. -/
def state : Progress → State
  | .next c _ => c.state
  | .halt _ st => st

/-- What can be seen of a step. -/
def event? : Progress → Option Event
  | .next _ event => event
  | .halt .. => none

end Progress

/-- What a step may make of the store of a state, by what is done next. -/
inductive State.Effect (st : State) : Control → Store → Prop where
  /-- Nothing changes. -/
  | same {c : Control} : Effect st c st.store
  /-- A variable is assigned. -/
  | assign {v : Value} {ref : Ref Occurrence} {k : ValueCont} (e : EnvId) :
      Effect st (.deliver v (.assign ref k)) (st.store.define e ref.token.lexeme v)
  /-- The initializer of a variable has a value. -/
  | var {v : Value} {name : Token} {k : StmtCont} :
      Effect st (.deliver v (.var name k)) (st.store.define st.environment name.lexeme v)
  /-- A variable is nil, as it has no initializer or is new among the globals. -/
  | nilVar {name : Token} {value : Option ExprCode} {k : StmtCont} :
      Effect st (.execute (.var name value) k) (st.store.define st.environment name.lexeme .nil)
  /-- A variable is new among the globals and has no initializer. -/
  | newVar {name : Token} {k : StmtCont} :
      Effect st (.execute (.var name none) k)
        ((st.store.define st.environment name.lexeme .nil).define st.environment name.lexeme .nil)
  /-- A block is entered. -/
  | block {body : List Code} {k : StmtCont} :
      Effect st (.execute (.block body) k) st.enterBlock.store
  /-- A function is declared. -/
  | function {decl : FunDecl Occurrence} {k : StmtCont} :
      Effect st (.execute (.function decl) k) (st.declareFunction decl).store
  /-- A class without a superclass is declared. -/
  | class {name : Token} {statics methods : List (FunDecl Occurrence)} {k : StmtCont} :
      Effect st (.execute (.class name none statics methods) k)
        (st.declareClass name.lexeme none statics methods).2.store
  /-- A class is declared when its superclass is known. -/
  | subclass {superclass name : Token} {c : ClassId} {statics methods : List (FunDecl Occurrence)}
      {k : StmtCont} :
      Effect st (.deliver (.class c) (.inherit superclass name statics methods k))
        (st.declareClass name.lexeme (some c) statics methods).2.store
  /-- A field is set. -/
  | setField {c : Control} (i : InstanceId) (name : String) (v : Value) :
      Effect st c (st.setField i name v).store
  /-- A property gets its value: a method of the store gets its receiver. -/
  | realize {c : Control} {p : Store.Property}
      (hp : ∀ fn v, p = .method fn v → ∃ f, st.store.function? f = some fn) :
      Effect st c (st.realize p).2.store
  /-- A function is called. -/
  | call {c : Control} (fn : Function) (arguments : List Value) :
      Effect st c (st.enterFunction fn arguments).store
  /-- A class without an initializer is called. -/
  | addInstance {c : Control} (cls : ClassId) : Effect st c (st.addInstance cls).2.store
  /-- A class is called, but its initializer is not, as too many calls are nested. -/
  | copy {c : Control} (cls : ClassId) (fn : Function) (v : Value) :
      Effect st c ((st.addInstance cls).2.copyFor fn v).2.store
  /-- A class is called, and with it its initializer. -/
  | construct {c : Control} (cls : ClassId) (fn copy : Function) (v : Value)
      (arguments : List Value) :
      Effect st c (((st.addInstance cls).2.copyFor fn v).2.enterFunction copy arguments).store

/-- What a step makes of the store, and that nothing that is seen of it is a runtime error or a
report. -/
structure Progress.Effects (p : Progress) (st : State) (c : Control) : Prop where
  /-- The effect. -/
  store : st.Effect c p.state.store
  /-- What is seen. -/
  quiet : ∀ event ∈ p.event?, event.error? = none ∧ event.report? = none

namespace Progress

variable {p : Progress} {st : State} {c : Control} {k : ValueCont}

theorem effects_of (h : st.Effect c p.state.store) (hevent : p.event? = none) : p.Effects st c :=
  ⟨h, by simp [hevent]⟩

theorem effects_same (h : p.state.store = st.store) (hevent : p.event? = none) : p.Effects st c :=
  effects_of (h ▸ .same) hevent

theorem effects_deliverOr (r : Except Abort Value) : (deliverOr st r k).Effects st c := by
  cases r <;> exact effects_same rfl rfl

theorem effects_deliverMade (r : Except Abort Value) : (deliverMade st r k).Effects st c := by
  cases r <;> exact effects_same rfl rfl

theorem effects_deliverProperty {r : Except Abort Store.Property}
    (hr : ∀ p fn v, r = .ok p → p = .method fn v → ∃ f, st.store.function? f = some fn) :
    (deliverProperty st r k).Effects st c := by
  cases r with
  | error a => exact effects_same rfl rfl
  | ok p => exact effects_of (.realize fun fn v => hr p fn v rfl) rfl

end Progress

namespace State

variable {st : State} {setup : Setup} {c : Control} {k : ValueCont}

theorem effects_evaluate (e : ExprCode) : (st.evaluate setup k e).Effects st c := by
  cases e with
  | «variable» r | this r => exact Progress.effects_deliverOr _
  | super r method =>
    refine Progress.effects_deliverProperty fun p fn v h hp => ?_
    unfold readSuper at h
    split at h
    · exact Store.method_of_superMethod h hp
    · cases h
  | _ => exact Progress.effects_same rfl rfl

/-- The declaration of a class is told by the log. -/
theorem effects_finishClass (name : Token) (s : Option ClassId)
    (statics methods : List (FunDecl Occurrence)) (k : StmtCont)
    (h : st.Effect c (st.declareClass name.lexeme s statics methods).2.store) :
    (st.finishClass name s statics methods k).Effects st c := by
  refine ⟨h, fun event hevent => ?_⟩
  cases hevent
  exact ⟨rfl, rfl⟩

theorem effects_execute (s : Code) (k : StmtCont) :
    (st.execute k s).Effects st (.execute s k) := by
  cases s with
  | var name initializer =>
    -- only a new global variable is set before its initializer has a value
    cases initializer with
    | none =>
      refine Progress.effects_of ?_ rfl
      simp only [execute, Progress.complete, Progress.state, beginVar]
      split
      · exact .newVar
      · exact .nilVar
    | some value =>
      refine Progress.effects_of ?_ rfl
      simp only [execute, Progress.evaluate, Progress.state, beginVar]
      split
      · exact .nilVar
      · exact .same
  | block body => exact Progress.effects_of .block rfl
  | function decl => exact Progress.effects_of .function rfl
  | «return» keyword value => cases value <;> exact Progress.effects_same rfl rfl
  | «class» name superclass statics methods =>
    cases superclass with
    | none => exact effects_finishClass name none statics methods k .class
    | some r => exact Progress.effects_same rfl rfl
  | _ => exact Progress.effects_same rfl rfl

/-! ## Calls -/

theorem effects_call (callee : Value) (arguments : List Value) (paren : Token) :
    (st.call setup callee arguments paren k).Effects st c := by
  have hform := st.callForm_call setup callee arguments paren
  generalize st.call setup callee arguments paren = call at hform ⊢
  cases hform with
  | refused | noFunction | noInitializer | clock => exact Progress.effects_same rfl rfl
  | bare => exact Progress.effects_of (.addInstance _) rfl
  | @function f fn =>
    unfold enter
    split
    · exact Progress.effects_same rfl rfl
    · exact Progress.effects_of (.call fn arguments) rfl
  | @initializer cls fn =>
    unfold enter
    split
    · exact Progress.effects_of (.copy cls fn _) rfl
    · exact Progress.effects_of (.construct cls fn _ _ arguments) rfl

theorem effects_argumentsFrom (paren : Token) (callee : Value) (done : List Value)
    (rest : List ExprCode) : (st.argumentsFrom setup paren callee done rest k).Effects st c := by
  cases rest with
  | nil => exact effects_call callee done paren
  | cons => exact Progress.effects_same rfl rfl

/-! ## Values and ends of statements -/

theorem effects_deliver (v : Value) (k : ValueCont) :
    (st.deliver setup v k).Effects st (.deliver v k) := by
  cases k with
  | assign ref k =>
    simp only [deliver]
    split
    · exact Progress.effects_of (.assign _) rfl
    · exact Progress.effects_same rfl rfl
  | binaryDone | unary => exact Progress.effects_deliverMade _
  | logicalRight | ifThen | «while» | fieldTarget =>
    simp only [deliver]
    split <;> exact Progress.effects_same rfl rfl
  | callee paren arguments k => exact effects_argumentsFrom paren v [] arguments
  | argument paren callee done rest k => exact effects_argumentsFrom paren callee (done ++ [v]) rest
  | field name k =>
    exact Progress.effects_deliverProperty fun p fn w h hp => Store.method_of_property h hp
  | fieldValue target name k => exact Progress.effects_of (.setField target name.lexeme v) rfl
  | expression k =>
    -- the value is shown in interactive use, which is no problem to tell of
    simp only [deliver]
    split
    · refine ⟨.same, fun event h => ?_⟩
      cases h
      exact ⟨rfl, rfl⟩
    · exact Progress.effects_same rfl rfl
  | print k =>
    refine ⟨.same, fun event h => ?_⟩
    cases h
    exact ⟨rfl, rfl⟩
  | var name k => exact Progress.effects_of .var rfl
  | inherit superclass name statics methods k =>
    cases v with
    | «class» cls => exact effects_finishClass name (some cls) statics methods k .subclass
    | _ => exact Progress.effects_same rfl rfl
  | answer | binaryRight | choose | ifElse | «return» => exact Progress.effects_same rfl rfl

theorem effects_complete (completion : Completion) (k : StmtCont) :
    (st.complete completion k).Effects st c := by
  cases k with
  | program rest => cases rest <;> exact Progress.effects_same rfl rfl
  | seq rest k => cases completion <;> cases rest <;> exact Progress.effects_same rfl rfl
  | leave => exact Progress.effects_same rfl rfl
  | loop => cases completion <;> exact Progress.effects_same rfl rfl
  | activation caller result k =>
    simp only [complete]
    cases st.callValue result completion <;> exact Progress.effects_same rfl rfl

end State

/-- What every step makes of the store. -/
theorem Config.effects_step (c : Config) (setup : Setup) :
    (c.step setup).Effects c.state c.control := by
  obtain ⟨control, st⟩ := c
  cases control with
  | evaluate e k => exact State.effects_evaluate e
  | execute s k => exact State.effects_execute s k
  | deliver v k => exact State.effects_deliver v k
  | complete completion k => exact State.effects_complete completion k

end Lox
