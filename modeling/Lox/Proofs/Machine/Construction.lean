import Lox.Proofs.Machine.Genuine
import Lox.Proofs.Machine.Graft
import Lox.Proofs.Store.Paths

/-!
# How objects are made

A class is called with as many arguments as its initializer has parameters, or else the call is cut
off before anything is done. Then there is a new instance of the class. The body of the initializer,
if there is one, is executed with the instance as its receiver; when it comes to its end, whatever
that is, the instance is the value of the call. An initializer that is called as a method of an
instance has that instance as its value.

## Main definitions

* `Config.calling`, `Calls`: a value is called, and what the call comes to
* `Store.HasInitializer`: the initializer that a class has, or that it has none
* `Store.BoundInitializer`: an initializer that got an instance as its receiver
* `State.enterInitializer`: where the body of an initializer begins
* `Constructs`: what the call of a class comes to

## Main results

* `State.call_class`: what the call of a class leads to
* `constructs`: what it comes to, if the class gets as many arguments as it takes
* `Store.BoundInitializer.value_eq`: the value of an initializer that is called as a method
-/

namespace Lox

/-! ## Calls -/

/-- A value is called with arguments that are known. -/
def Config.calling (st : State) (callee : Value) (arguments : List Value) (paren : Token)
    (k : ValueCont) : Config :=
  match arguments.reverse with
  | [] => ⟨.deliver callee (.callee paren [] k), st⟩
  | last :: done => ⟨.deliver last (.argument paren callee done.reverse [] k), st⟩

/-- What a call comes to. -/
abbrev Calls (setup : Setup) (st : State) (callee : Value) (arguments : List Value)
    (paren : Token) : Transcript → Except Abort Value → State → Prop :=
  Delivers setup (Config.calling st callee arguments paren)

section Calling

variable {setup : Setup} {st : State} {callee : Value} {arguments : List Value} {paren : Token}

/-- A step makes the call. -/
theorem Config.step_calling (k : ValueCont) :
    (calling st callee arguments paren k).step setup = st.call setup callee arguments paren k := by
  cases hreverse : arguments.reverse with
  | nil =>
    obtain rfl := List.reverse_eq_nil_iff.1 hreverse
    rfl
  | cons last done =>
    obtain rfl : arguments = done.reverse ++ [last] := by
      simpa using congrArg List.reverse hreverse
    simp only [calling, hreverse]
    rfl

/-- A call that goes on for ever after its first step. -/
theorem Endless.calling {first : ValueCont → Config} (h : Endless setup first)
    (hfirst : ∀ k, st.call setup callee arguments paren k = .next (first k) none) :
    Endless setup (Config.calling st callee arguments paren) :=
  h.of_next id none fun k => (Config.step_calling k).trans (hfirst k)

end Calling

/-! ## Initializers -/

/-- The initializer of a class is the method of that name of the nearest class that has one, from
the class itself upwards; there is none if no class has one. -/
def Store.HasInitializer (σ : Store) (c : ClassId) (init : Option Function) : Prop :=
  ∃ found, Seeks σ.superclass? (σ.ownMethod? · "init") c found ∧
    Option.Rel (fun f fn => σ.function? f = some fn) found init

/-- A function that is an initializer with an instance as its receiver. -/
def Store.BoundInitializer (σ : Store) (f : FunId) (i : InstanceId) : Prop :=
  ∃ fn, σ.function? f = some fn ∧ fn.isInitializer ∧
    σ.binding? fn.closure Keyword.thisWord.text = some (.instance i)

namespace State

/-- The state in which the body of the initializer of a class begins: the receiver is a new
instance. -/
def enterInitializer (st : State) (c : ClassId) (init : Function) (arguments : List Value) :
    State :=
  let (i, st) := st.addInstance c
  let (fn, st) := st.copyFor init (.instance i)
  st.enterFunction fn arguments

/-- The number of parameters of an initializer, if there is one. -/
def initializerArity (init : Option Function) : Nat := (init.map (·.decl.arity)).getD 0

variable {setup : Setup} {st : State} {c : ClassId} {init : Option Function} {fn : Function}
  {arguments : List Value} {paren : Token}

/-- In a store without dangling references the initializer of a class is found. -/
theorem exists_initializer (h : st.store.Linked) (hc : st.store.Contains (.class c)) :
    ∃ init, st.initializer c = .ok init ∧ st.store.HasInitializer c init := by
  have hseeks := h.wellFormed.methods c "init" hc
  cases hfound : st.store.findMethod? c "init" with
  | none =>
    rw [hfound] at hseeks
    exact ⟨none, by rw [initializer, hfound], none, hseeks, .none⟩
  | some f =>
    rw [hfound] at hseeks
    obtain ⟨d, -, hdeclares⟩ := Store.declares_of_found? (q := ⟨false, c, "init"⟩) hfound
    obtain ⟨fn, hfn⟩ := h.methods hdeclares
    refine ⟨some fn, ?_, some f, hseeks, .some hfn⟩
    simp only [initializer, hfound, Store.function, hfn]
    rfl

/-- The number of arguments that a class takes is that of the parameters of its initializer. -/
theorem arity?_class (h : st.initializer c = .ok init) :
    st.store.arity? (.class c) = some (initializerArity init) :=
  congrArg some (classArity_of_initializer h)

/-- What the call of a class leads to. -/
theorem call_class (h : st.initializer c = .ok init) (k : ValueCont) :
    st.call setup (.class c) arguments paren k =
      if arguments.length = initializerArity init then st.construct setup c init arguments k
      else .halt (.aborted (.atToken paren (.wrongArity (initializerArity init) arguments.length)))
        st := by
  simp only [call, h]
  rfl

/-- The body of an initializer comes next, unless too many calls are nested. -/
theorem construct_some (k : ValueCont) :
    st.construct setup c (some fn) arguments k =
      if setup.callLimit ≤ st.depth then .halt (.aborted .stackOverflow)
        ((st.addInstance c).2.copyFor fn (.instance (st.addInstance c).1)).2
      else .next ⟨.complete .normal (.seq fn.decl.body
        (.activation st.environment (.constructed (st.addInstance c).1) k)),
          st.enterInitializer c fn arguments⟩ none :=
  rfl

end State

/-! ## New instances -/

/-- What the call of a class has made of a state: there is the instance, and the caller goes on in
its environment. -/
structure State.HasMade (st st' : State) (c : ClassId) (i : InstanceId) : Prop where
  /-- The instance is one of the class. -/
  made : ∃ inst, st'.store.instance? i = some inst ∧ inst.classId = c
  /-- The environment of the caller. -/
  environment : st'.environment = st.environment

/-- What the call of a class with an initializer or without one comes to, if the class gets as many
arguments as it takes and the instance is the next one. -/
inductive Constructs (setup : Setup) (st : State) (c : ClassId) (arguments : List Value)
    (paren : Token) (i : InstanceId) : Option Function → Prop where
  /-- Without an initializer the instance is the value at once. -/
  | bare {st' : State} (made : st.HasMade st' c i)
      (call : Calls setup st (.class c) arguments paren [] (.ok (.instance i)) st') :
      Constructs setup st c arguments paren i none
  /-- Where too many calls are nested, the body of the initializer is not reached. -/
  | overflow {init : Function} {st' : State} (limit : setup.callLimit ≤ st.depth)
      (call : Calls setup st (.class c) arguments paren [] (.error .stackOverflow) st') :
      Constructs setup st c arguments paren i (some init)
  /-- Otherwise the body of the initializer is executed: if it comes to its end, whatever that is,
  the instance is the value, and if it is cut off or goes on for ever, so is the call. -/
  | body {init : Function} (limit : st.depth < setup.callLimit)
      (ends : ∀ t completion st',
        Performs setup init.decl.body (st.enterInitializer c init arguments) t (.ok completion)
            st' →
          st.HasMade (st'.leaveFunction st.environment) c i ∧
            Calls setup st (.class c) arguments paren t (.ok (.instance i))
              (st'.leaveFunction st.environment))
      (aborts : ∀ t a st',
        Performs setup init.decl.body (st.enterInitializer c init arguments) t (.error a) st' →
          Calls setup st (.class c) arguments paren t (.error a) st')
      (endless : Endless setup (fun k => ⟨.complete .normal (.seq init.decl.body k),
          st.enterInitializer c init arguments⟩) →
        Endless setup (Config.calling st (.class c) arguments paren))
      (settled : (∃ t r st',
          Performs setup init.decl.body (st.enterInitializer c init arguments) t r st') ∨
        Endless setup (fun k => ⟨.complete .normal (.seq init.decl.body k),
          st.enterInitializer c init arguments⟩)) :
      Constructs setup st c arguments paren i (some init)

section Construction

open Config

variable {setup : Setup} {st : State} {c : ClassId} {init : Option Function} {fn : Function}
  {arguments : List Value} {paren : Token} {t : Transcript}

/-- The receiver of an initializer is an instance of the class. -/
theorem State.instance?_enterInitializer (st : State) (c : ClassId) (fn : Function)
    (arguments : List Value) :
    ∃ inst, (st.enterInitializer c fn arguments).store.instance? (st.addInstance c).1 = some inst ∧
      inst.classId = c := by
  have hadd : (st.addInstance c).2.store.instance? (st.addInstance c).1 = some { classId := c } :=
    Store.instance?_addInstance_self st.store c
  -- the environments of the receiver and of the body change no instance
  have hcopy : (st.addInstance c).2.store.Retains
      ((st.addInstance c).2.copyFor fn (.instance (st.addInstance c).1)).2.store := .of_eq rfl rfl
  have hretains := hcopy.trans (State.retains_enterFunction _
    ((st.addInstance c).2.copyFor fn (.instance (st.addInstance c).1)).1 arguments)
  exact hretains.instances hadd

/-- The call of a class with an initializer whose body is reached. -/
theorem constructs_body (hlimit : st.depth < setup.callLimit)
    (hfirst : ∀ k, st.call setup (.class c) arguments paren k = .next ⟨.complete .normal
      (.seq fn.decl.body (.activation st.environment (.constructed (st.addInstance c).1) k)),
        st.enterInitializer c fn arguments⟩ none) :
    Constructs setup st c arguments paren (st.addInstance c).1 (some fn) := by
  have hstep : ∀ k, (calling st (.class c) arguments paren k).step setup = _ := fun k =>
    (step_calling k).trans (hfirst k)
  refine .body hlimit (fun t completion st' hbody => ⟨⟨?_, rfl⟩, fun k => ?_⟩)
    (fun t a st' hbody k => ?_) (fun hbody => Endless.calling (fun k => hbody _) hfirst)
    (performs_or_endless setup _ _)
  · -- the class of an instance never changes
    have hretains := (hbody (.program [])).retains
    obtain ⟨inst, hinst, hclass⟩ := st.instance?_enterInitializer c fn arguments
    obtain ⟨inst', hinst', heq⟩ := hretains.instances hinst
    exact ⟨inst', hinst', heq.trans hclass⟩
  · have hlast : Config.step setup ⟨.complete completion
        (.activation st.environment (.constructed (st.addInstance c).1) k), st'⟩ =
        .next ⟨.deliver (.instance (st.addInstance c).1) k, st'.leaveFunction st.environment⟩
          none := rfl
    have hend := (hbody _).trans (.step hlast (.refl _))
    simpa using Steps.step (hstep k) hend
  · obtain ⟨last, hsteps, habort⟩ := hbody (.activation st.environment
      (.constructed (st.addInstance c).1) k)
    exact ⟨last, .step (hstep k) hsteps, habort⟩

/-- What the call of a class comes to, if it gets as many arguments as it takes. -/
theorem constructs (h : st.initializer c = .ok init)
    (hlength : arguments.length = State.initializerArity init) :
    Constructs setup st c arguments paren (st.addInstance c).1 init := by
  have hcall : ∀ k, st.call setup (.class c) arguments paren k =
      st.construct setup c init arguments k := fun k => by
    rw [State.call_class h, if_pos hlength]
  cases init with
  | none =>
    have hmade : st.HasMade (st.addInstance c).2 c (st.addInstance c).1 :=
      ⟨⟨_, Store.instance?_addInstance_self st.store c, rfl⟩, rfl⟩
    refine .bare hmade fun k => ?_
    exact .step ((step_calling k).trans (hcall k)) (.refl _)
  | some fn =>
    by_cases hlimit : setup.callLimit ≤ st.depth
    · -- the instance and the copy of the initializer are there already
      have habort : ∀ k, (calling st (.class c) arguments paren k).step setup =
          .halt (.aborted .stackOverflow)
            ((st.addInstance c).2.copyFor fn (.instance (st.addInstance c).1)).2 := fun k => by
        rw [step_calling, hcall, State.construct_some, if_pos hlimit]
      exact .overflow hlimit fun k => ⟨_, .refl _, habort k⟩
    · refine constructs_body (Nat.lt_of_not_le hlimit) fun k => ?_
      rw [hcall, State.construct_some, if_neg hlimit]

/-- The call of a class is cut off for its arguments exactly if it gets another number of them than
it takes; then nothing has changed. -/
theorem call_class_eq_wrongArity_iff (h : st.initializer c = .ok init) :
    (∀ k, st.call setup (.class c) arguments paren k = .halt (.aborted (.atToken paren
        (.wrongArity (State.initializerArity init) arguments.length))) st) ↔
      arguments.length ≠ State.initializerArity init := by
  constructor
  · intro hhalt hlength
    have hcall := hhalt .answer
    rw [State.call_class h, if_pos hlength] at hcall
    cases init with
    | none => cases hcall
    | some fn =>
      rw [State.construct_some] at hcall
      split at hcall <;> cases hcall
  · intro hlength k
    rw [State.call_class h, if_neg hlength]

end Construction

/-! ## Initializers of instances -/

section Bound

open Config

variable {setup : Setup} {st st' : State} {f : FunId} {i : InstanceId} {fn : Function}
  {arguments : List Value} {paren : Token} {t : Transcript} {v : Value}

/-- A call that is cut off at once has no value. -/
theorem Calls.false_of_abort {callee : Value} {a : Abort} {last : State}
    (h : Calls setup st callee arguments paren t (.ok v) st')
    (habort : st.call setup callee arguments paren .answer = .halt (.aborted a) last) : False := by
  have hhalt := (step_calling .answer).trans habort
  obtain ⟨-, heq⟩ := (Steps.refl _).last_unique hhalt (h .answer) rfl
  rw [heq] at hhalt
  cases hhalt

/-- What a call that begins with the body of a function comes to is what comes of the body. -/
theorem Calls.of_body {callee : Value} {body : List Code} {entered : State} {result : CallResult}
    (h : Calls setup st callee arguments paren t (.ok v) st')
    (hfirst : st.call setup callee arguments paren .answer = .next ⟨.complete .normal
      (.seq body (.activation st.environment result .answer)), entered⟩ none) :
    ∃ u completion last, Performs setup body entered u (.ok completion) last ∧
      last.callValue result completion = .ok v := by
  have hstep := (step_calling .answer).trans hfirst
  have hrun := h .answer
  -- a run has one end, so what the body comes to and what the call comes to agree
  rcases performs_or_endless setup body entered with ⟨u, r, last, hbody⟩ | hendless
  · have hunder := hbody (.activation st.environment result .answer)
    cases r with
    | error a =>
      obtain ⟨e, hsteps, habort⟩ := hunder
      obtain ⟨-, rfl⟩ := (Steps.step hstep hsteps).last_unique habort hrun rfl
      cases habort
    | ok completion =>
      refine ⟨u, completion, last, hbody, ?_⟩
      have hlast : Config.step setup
          ⟨.complete completion (.activation st.environment result .answer), last⟩ =
          .deliverOr (last.leaveFunction st.environment) (last.callValue result completion)
            .answer := rfl
      cases hvalue : last.callValue result completion with
      | error a =>
        rw [hvalue] at hlast
        obtain ⟨-, heq⟩ := (Steps.step hstep hunder).last_unique hlast hrun rfl
        cases heq
      | ok w =>
        rw [hvalue] at hlast
        have hend := (Steps.step hstep hunder).trans (.step hlast (.refl _))
        obtain ⟨-, heq⟩ := hend.last_unique rfl hrun rfl
        cases heq
        rfl
  · -- a run that goes on for ever has no value
    obtain ⟨n, hn⟩ := hrun.ends rfl
    obtain ⟨d, hd⟩ := hendless (.activation st.environment result .answer) n
    have hlater := hn (n + 1) (Nat.le_succ n)
    rw [after?_next hstep, hd] at hlater
    cases hlater

/-- What the word stands for in the closure of a function is what it stands for after the body of a
function. -/
theorem Performs.binding?_keyword {entered last : State} {completion : Completion}
    (h : Performs setup fn.decl.body entered t (.ok completion) last)
    (hσ : entered.store.Genuine) (hfn : Stmt.GenuineFunction fn.decl) {e : EnvId}
    (he : entered.store.Has e) (k : Keyword) :
    last.store.binding? e k.text = entered.store.binding? e k.text := by
  have hstart : Config.Genuine ⟨.complete .normal (.seq fn.decl.body (.program [])), entered⟩ :=
    ⟨⟨hfn.body, trivial⟩, hσ⟩
  obtain ⟨n, hn⟩ := (h (.program [])).exists_after
  exact Config.binding?_keyword hstart hn he k

/-- What the call of an initializer as a method leads to. -/
theorem State.call_initializer (hfn : st.store.function? f = some fn) (hinit : fn.isInitializer)
    (k : ValueCont) :
    st.call setup (.function f) arguments paren k =
      if arguments.length = fn.decl.arity then
        if setup.callLimit ≤ st.depth then .halt (.aborted .stackOverflow) st
        else .next ⟨.complete .normal (.seq fn.decl.body
          (.activation st.environment (.receiver fn.closure) k)), st.enterFunction fn arguments⟩
            none
      else .halt (.aborted (.atToken paren (.wrongArity fn.decl.arity arguments.length))) st := by
  simp only [State.call, Store.function, hfn, State.callFunction, hinit]
  rfl

/-- The body of a function does not change what a reserved word stands for in the closure. -/
theorem Performs.binding?_closure {last : State} {completion : Completion} (hσ : st.store.Genuine)
    (hfn : st.store.function? f = some fn) (hhas : st.store.Has fn.closure)
    (h : Performs setup fn.decl.body (st.enterFunction fn arguments) t (.ok completion) last)
    (k : Keyword) :
    last.store.binding? fn.closure k.text = st.store.binding? fn.closure k.text := by
  -- entering the body sets variables of its own environment only
  obtain ⟨hentered, hsame⟩ := State.spares_enterFunction st fn arguments fn.closure k.text hhas
    List.not_mem_nil
  have hgenuine : (st.enterFunction fn arguments).store.Genuine := by
    intro g gn hg
    apply hσ g gn
    rwa [Store.function?, State.enterFunction, Store.functions_defineAll] at hg
  exact (h.binding?_keyword hgenuine (hσ f fn hfn) hentered k).trans hsame

/-- The value of an initializer that is called as a method is its receiver. -/
theorem Store.BoundInitializer.value_eq (hf : st.store.BoundInitializer f i)
    (hσ : st.store.Genuine)
    (h : Calls setup st (.function f) arguments paren t (.ok v) st') : v = .instance i := by
  obtain ⟨fn, hfn, hinit, hthis⟩ := hf
  have hcall : st.call setup (.function f) arguments paren .answer = _ :=
    State.call_initializer hfn hinit .answer
  by_cases hlength : arguments.length = fn.decl.arity
  · rw [if_pos hlength] at hcall
    by_cases hlimit : setup.callLimit ≤ st.depth
    · rw [if_pos hlimit] at hcall
      exact (h.false_of_abort hcall).elim
    · rw [if_neg hlimit] at hcall
      obtain ⟨u, completion, last, hbody, hvalue⟩ := h.of_body hcall
      have hhas : st.store.Has fn.closure :=
        Store.has_of_holds (Option.isSome_iff_exists.2 ⟨_, hthis⟩)
      have hlast : last.store.binding? fn.closure "this" = some (.instance i) :=
        (Performs.binding?_closure hσ hfn hhas hbody .thisWord).trans hthis
      -- whatever the body came to, the value is what the word stands for in the closure
      have hword : last.store.getAt fn.closure 0 "this" = .ok (.instance i) := by
        simp only [Store.getAt, Store.ancestor, Store.valueIn, hlast]
      exact (Except.ok.inj (hword.symm.trans hvalue)).symm
  · rw [if_neg hlength] at hcall
    exact (h.false_of_abort hcall).elim

end Bound

end Lox
