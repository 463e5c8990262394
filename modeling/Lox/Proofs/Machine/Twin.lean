import Lox.Proofs.Machine.Moments
import Lox.Proofs.Store.Twin

/-!
# Twin runs

Two configurations are twins if they do the same next, with corresponding code, in twin states.
Twins take the same steps: they show the same and reach twins again, for as long as every
variable is called in its environment what its text becomes. So the places of tokens, the
numbers of references and the names of variables make no difference to what a program does. One
of two twins may have more statements to run when the other has come to its end.

## Main definitions

* `ValueCont.Twin`, `StmtCont.Twin`, `Control.Twin`, `State.Twin`, `Config.Twin`
* `Config.Suits`: the variables of the next step are called what they should be
* `Progress.Twin`, `Run.Twin`: what twins come to
* `Config.taken`: the number of steps of a run

## Main results

* `Config.twin_step`: a step of twins
* `Config.twin_runFrom`: runs of twins
* `Config.exists_runFrom_finished`: the end of the shorter of two programs
-/

namespace Lox

/-! ## Twin configurations -/

section Continuations

variable (L : Likeness Occurrence Occurrence) (extra : List Code)

mutual

/-- Continuations of the same shape with corresponding code. -/
inductive ValueCont.Twin : ValueCont → ValueCont → Prop where
  | answer : ValueCont.Twin .answer .answer
  | assign {r r' : Ref Occurrence} {k k' : ValueCont} (h : L.Use r r')
      (hk : ValueCont.Twin k k') : ValueCont.Twin (.assign r k) (.assign r' k')
  | binaryRight {t t' : Token} {e e' : ExprCode} {k k' : ValueCont} (op : BinaryOp)
      (ht : L.token t t') (he : e.Twin L e') (hk : ValueCont.Twin k k') :
      ValueCont.Twin (.binaryRight op t e k) (.binaryRight op t' e' k')
  | binaryDone {t t' : Token} {k k' : ValueCont} (op : BinaryOp) (ht : L.token t t') (v : Value)
      (hk : ValueCont.Twin k k') : ValueCont.Twin (.binaryDone op t v k) (.binaryDone op t' v k')
  | logicalRight {e e' : ExprCode} {k k' : ValueCont} (op : LogicalOp) (he : e.Twin L e')
      (hk : ValueCont.Twin k k') :
      ValueCont.Twin (.logicalRight op e k) (.logicalRight op e' k')
  | unary {t t' : Token} {k k' : ValueCont} (op : UnaryOp) (ht : L.token t t')
      (hk : ValueCont.Twin k k') : ValueCont.Twin (.unary op t k) (.unary op t' k')
  | choose {a a' b b' : ExprCode} {k k' : ValueCont} (ha : a.Twin L a') (hb : b.Twin L b')
      (hk : ValueCont.Twin k k') : ValueCont.Twin (.choose a b k) (.choose a' b' k')
  | callee {t t' : Token} {es es' : List ExprCode} {k k' : ValueCont} (ht : L.token t t')
      (hes : List.Forall₂ (Expr.Twin L) es es') (hk : ValueCont.Twin k k') :
      ValueCont.Twin (.callee t es k) (.callee t' es' k')
  | argument {t t' : Token} {es es' : List ExprCode} {k k' : ValueCont} (ht : L.token t t')
      (v : Value) (done : List Value) (hes : List.Forall₂ (Expr.Twin L) es es')
      (hk : ValueCont.Twin k k') :
      ValueCont.Twin (.argument t v done es k) (.argument t' v done es' k')
  | field {t t' : Token} {k k' : ValueCont} (ht : L.token t t') (hk : ValueCont.Twin k k') :
      ValueCont.Twin (.field t k) (.field t' k')
  | fieldTarget {t t' : Token} {e e' : ExprCode} {k k' : ValueCont} (ht : L.token t t')
      (he : e.Twin L e') (hk : ValueCont.Twin k k') :
      ValueCont.Twin (.fieldTarget t e k) (.fieldTarget t' e' k')
  | fieldValue {t t' : Token} {k k' : ValueCont} (i : InstanceId) (ht : L.token t t')
      (hk : ValueCont.Twin k k') : ValueCont.Twin (.fieldValue i t k) (.fieldValue i t' k')
  | expression {k k' : StmtCont} (hk : StmtCont.Twin k k') :
      ValueCont.Twin (.expression k) (.expression k')
  | print {k k' : StmtCont} (hk : StmtCont.Twin k k') : ValueCont.Twin (.print k) (.print k')
  | var {t t' : Token} {k k' : StmtCont} (ht : L.name t t') (hk : StmtCont.Twin k k') :
      ValueCont.Twin (.var t k) (.var t' k')
  | ifThen {s s' : Code} {k k' : StmtCont} (hs : s.Twin L s') (hk : StmtCont.Twin k k') :
      ValueCont.Twin (.ifThen s k) (.ifThen s' k')
  | ifElse {s s' r r' : Code} {k k' : StmtCont} (hs : s.Twin L s') (hr : r.Twin L r')
      (hk : StmtCont.Twin k k') : ValueCont.Twin (.ifElse s r k) (.ifElse s' r' k')
  | while {e e' : ExprCode} {s s' : Code} {k k' : StmtCont} (he : e.Twin L e')
      (hs : s.Twin L s') (hk : StmtCont.Twin k k') :
      ValueCont.Twin (.while e s k) (.while e' s' k')
  | return {k k' : StmtCont} (hk : StmtCont.Twin k k') : ValueCont.Twin (.return k) (.return k')
  | inherit {u u' t t' : Token} {ss ss' ms ms' : List (FunDecl Occurrence)} {k k' : StmtCont}
      (hu : L.name u u') (ht : L.token t t') (hss : List.Forall₂ (FunDecl.Twin L) ss ss')
      (hms : List.Forall₂ (FunDecl.Twin L) ms ms') (hk : StmtCont.Twin k k') :
      ValueCont.Twin (.inherit u t ss ms k) (.inherit u' t' ss' ms' k')

/-- Continuations of the same shape with corresponding code; the second program goes on. -/
inductive StmtCont.Twin : StmtCont → StmtCont → Prop where
  | program {ss ss' : List Code} (h : List.Forall₂ (Stmt.Twin L) ss ss') :
      StmtCont.Twin (.program ss) (.program (ss' ++ extra))
  | seq {ss ss' : List Code} {k k' : StmtCont} (h : List.Forall₂ (Stmt.Twin L) ss ss')
      (hk : StmtCont.Twin k k') : StmtCont.Twin (.seq ss k) (.seq ss' k')
  | leave {k k' : StmtCont} (outer : EnvId) (hk : StmtCont.Twin k k') :
      StmtCont.Twin (.leave outer k) (.leave outer k')
  | loop {e e' : ExprCode} {s s' : Code} {k k' : StmtCont} (he : e.Twin L e')
      (hs : s.Twin L s') (hk : StmtCont.Twin k k') : StmtCont.Twin (.loop e s k) (.loop e' s' k')
  | activation {k k' : ValueCont} (caller : EnvId) (result : CallResult)
      (hk : ValueCont.Twin k k') :
      StmtCont.Twin (.activation caller result k) (.activation caller result k')

end

/-- The same is done next, with corresponding code. -/
inductive Control.Twin : Control → Control → Prop where
  | evaluate {e e' : ExprCode} {k k' : ValueCont} (he : e.Twin L e') (hk : k.Twin L extra k') :
      Twin (.evaluate e k) (.evaluate e' k')
  | execute {s s' : Code} {k k' : StmtCont} (hs : s.Twin L s') (hk : k.Twin L extra k') :
      Twin (.execute s k) (.execute s' k')
  | deliver {k k' : ValueCont} (v : Value) (hk : k.Twin L extra k') :
      Twin (.deliver v k) (.deliver v k')
  | complete {k k' : StmtCont} (c : Completion) (hk : k.Twin L extra k') :
      Twin (.complete c k) (.complete c k')

end Continuations

/-- States that differ in their stores alone, which are twins. -/
structure State.Twin (P : Pairing) (st st' : State) : Prop where
  environment : st'.environment = st.environment
  store : st.store.Twin P st'.store
  depth : st'.depth = st.depth
  readings : st'.readings = st.readings
  operations : st'.operations = st.operations

/-- Configurations that do the same next in twin states. -/
structure Config.Twin (P : Pairing) (extra : List Code) (c c' : Config) : Prop where
  control : c.control.Twin P.likeness extra c'.control
  state : c.state.Twin P c'.state

/-- Setups under which twins take the same steps. -/
structure Setup.Twin (P : Pairing) (setup setup' : Setup) : Prop where
  interactive : setup'.interactive = setup.interactive
  callLimit : setup'.callLimit = setup.callLimit
  clock : setup'.clock = setup.clock
  locals : ∀ {i j}, P.likeness.mark i j → setup.locals.distance? i = setup'.locals.distance? j

/-! ## What variables are called -/

/-- A reference is called `text` in the environments that it leads to. -/
def State.Calls (P : Pairing) (setup : Setup) (st : State) (r : Ref Occurrence) (text : String) :
    Prop :=
  match setup.locals.distance? r.mark with
  | some d => ∀ a, st.store.ancestor st.environment d = .ok a → text = P.rename a r.token.lexeme
  | none => text = r.token.lexeme ∧
      ∀ a ∈ st.store.chain Store.globals, P.rename a r.token.lexeme = r.token.lexeme

/-- The parameters of a function are called in an environment what their texts become. -/
def Pairing.SuitsParams (P : Pairing) (e : EnvId) (decl : FunDecl Occurrence) : Prop :=
  ∀ p ∈ decl.params, P.text p = P.rename e p.lexeme

/-- The parameters of what is called next, unless the call is refused. An initializer has the
environment of its receiver before that of its parameters. -/
def State.SuitsCall (P : Pairing) (setup : Setup) (st : State) (callee : Value)
    (arguments : List Value) : Prop :=
  match callee with
  | .function f => ∀ fn, st.store.function f = .ok fn → arguments.length = fn.decl.arity →
      st.depth < setup.callLimit → P.SuitsParams ⟨st.store.environments.size⟩ fn.decl
  | .class c => ∀ fn, st.initializer c = .ok (some fn) → arguments.length = fn.decl.arity →
      st.depth < setup.callLimit → P.SuitsParams ⟨st.store.environments.size + 1⟩ fn.decl
  | _ => True

/-- The variables of the next step are called in their environments what their texts become. -/
def Config.Suits (P : Pairing) (setup : Setup) (c : Config) : Prop :=
  match c with
  | ⟨.evaluate (.variable r) _, st⟩ | ⟨.deliver _ (.assign r _), st⟩ =>
    st.Calls P setup r (P.text r.token)
  | ⟨.evaluate (.this r) _, st⟩ => st.Calls P setup r r.token.lexeme
  | ⟨.execute (.var t _) _, st⟩ | ⟨.deliver _ (.var t _), st⟩ =>
    P.text t = P.rename st.environment t.lexeme
  | ⟨.execute (.function f) _, st⟩ => P.rename st.environment f.name.lexeme = f.name.lexeme
  | ⟨.execute (.class t none _ _) _, st⟩ | ⟨.deliver _ (.inherit _ t _ _ _), st⟩ =>
    P.rename st.environment t.lexeme = t.lexeme
  | ⟨.deliver v (.callee _ [] _), st⟩ => st.SuitsCall P setup v []
  | ⟨.deliver v (.argument _ callee done [] _), st⟩ => st.SuitsCall P setup callee (done ++ [v])
  | _ => True

section Keep

variable (L : Likeness Occurrence Occurrence) (setup : Setup) (st : State)

theorem State.calls_keep (r : Ref Occurrence) : st.Calls (.keep L) setup r r.token.lexeme := by
  unfold Calls
  split
  · exact fun _ _ => rfl
  · exact ⟨rfl, fun _ _ => rfl⟩

theorem State.suitsCall_keep (callee : Value) (arguments : List Value) :
    st.SuitsCall (.keep L) setup callee arguments := by
  unfold SuitsCall
  split
  · exact fun _ _ _ _ _ _ => rfl
  · exact fun _ _ _ _ _ _ => rfl
  · trivial

/-- Where every variable keeps its name, it is called what it should be. -/
theorem Config.suits_keep (c : Config) : c.Suits (.keep L) setup := by
  unfold Suits
  split
  -- variables that are read or set, and receivers
  · exact State.calls_keep L setup _ _
  · exact State.calls_keep L setup _ _
  · exact State.calls_keep L setup _ _
  -- declarations
  · rfl
  · rfl
  · rfl
  · rfl
  · rfl
  -- calls whose arguments are complete
  · exact State.suitsCall_keep L setup _ _ _
  · exact State.suitsCall_keep L setup _ _ _
  · trivial

end Keep

/-! ## Steps -/

/-- What steps of twins lead to. Where one program is over, the other goes on with the rest. -/
inductive Progress.Twin (P : Pairing) (extra : List Code) : Progress → Progress → Prop where
  | next {c c' : Config} (h : c.Twin P extra c') (event : Option Event) :
      Twin P extra (.next c event) (.next c' event)
  | value {st st' : State} (h : st.Twin P st') (v : Value) :
      Twin P extra (.halt (.value v) st) (.halt (.value v) st')
  | aborted {st st' : State} (h : st.Twin P st') {a a' : Abort} (ha : a.Twin P a') :
      Twin P extra (.abort st a) (.abort st' a')
  | finished {st st' : State} (h : st.Twin P st') {p : Progress}
      (hp : p = st'.complete .normal (.program extra)) : Twin P extra (.halt .finished st) p

/-- An operation is done in both. -/
theorem State.Twin.operate {P : Pairing} {st st' : State} (h : st.Twin P st') :
    st.operate.Twin P st'.operate :=
  ⟨h.environment, h.store, h.depth, h.readings, congrArg (· + 1) h.operations⟩

namespace Progress

variable {P : Pairing} {extra : List Code} {st st' : State} {k k' : ValueCont}

theorem twin_deliverOr (h : st.Twin P st') (hk : k.Twin P.likeness extra k')
    {r r' : Except Abort Value} (hr : Except.Twin P Eq r r') :
    (deliverOr st r k).Twin P extra (deliverOr st' r' k') := by
  cases hr with
  | ok hv =>
    subst hv
    exact .next ⟨.deliver _ hk, h⟩ none
  | error ha => exact .aborted h ha

/-- Twins make a number by the same operation. -/
theorem twin_deliverMade (h : st.Twin P st') (hk : k.Twin P.likeness extra k')
    {r r' : Except Abort Value} (hr : Except.Twin P Eq r r') :
    (deliverMade st r k).Twin P extra (deliverMade st' r' k') := by
  unfold deliverMade
  rw [h.operations]
  refine twin_deliverOr h.operate hk ?_
  cases hr with
  | ok hv => exact .ok (congrArg _ hv)
  | error ha => exact .error ha

theorem twin_deliverProperty (hP : P.Lawful) (h : st.Twin P st') (hk : k.Twin P.likeness extra k')
    {r r' : Except Abort Store.Property}
    (hr : Except.Twin P (Store.Property.Twin P.likeness) r r') :
    (deliverProperty st r k).Twin P extra (deliverProperty st' r' k') := by
  cases hr with
  | @ok p p' hp =>
    obtain ⟨hv, hstore⟩ := h.store.realize hP hp
    simp only [deliverProperty, State.realize, hv]
    exact .next ⟨.deliver _ hk, ⟨h.environment, hstore, h.depth, h.readings, h.operations⟩⟩ none
  | error ha => exact .aborted h ha

end Progress

namespace State

variable {P : Pairing} {setup setup' : Setup} {extra : List Code} {st st' : State}
  {k k' : ValueCont} {r r' : Ref Occurrence} {t t' : Token}

/-! ### Reading and changing -/

theorem Twin.define (hP : P.Lawful) (h : st.Twin P st') (e : EnvId) (name : String) (v : Value) :
    (st.defineIn e name v).Twin P (st'.defineIn e (P.rename e name) v) :=
  ⟨h.environment, h.store.define hP e name v, h.depth, h.readings, h.operations⟩

theorem Twin.addInstance (h : st.Twin P st') (c : ClassId) :
    (st'.addInstance c).1 = (st.addInstance c).1 ∧
      (st.addInstance c).2.Twin P (st'.addInstance c).2 := by
  obtain ⟨hnew, hadd⟩ := h.store.addInstance c
  exact ⟨hnew, h.environment, hadd, h.depth, h.readings, h.operations⟩

theorem Twin.copyFor (hP : P.Lawful) (h : st.Twin P st') {fn fn' : Function}
    (hfn : fn.Twin P.likeness fn') (v : Value) :
    (st.copyFor fn v).1.Twin P.likeness (st'.copyFor fn' v).1 ∧
      (st.copyFor fn v).2.Twin P (st'.copyFor fn' v).2 := by
  obtain ⟨hcopy, hstore⟩ := h.store.copyFor hP hfn v
  exact ⟨hcopy, h.environment, hstore, h.depth, h.readings, h.operations⟩

theorem Twin.readClock (hs : setup.Twin P setup') (h : st.Twin P st') :
    (st'.readClock setup').1 = (st.readClock setup).1 ∧
      (st.readClock setup).2.Twin P (st'.readClock setup').2 := by
  refine ⟨?_, h.environment, h.store, h.depth, ?_, h.operate.operations⟩
  · simp only [State.readClock, hs.clock, h.readings, h.operations]
  · simp only [State.readClock, h.readings]

theorem Twin.enterBlock (h : st.Twin P st') : st.enterBlock.Twin P st'.enterBlock := by
  obtain ⟨hnew, hadd⟩ := h.store.addEnvironment (some st.environment)
  rw [← h.environment] at hnew hadd
  refine ⟨?_, ?_, h.depth, h.readings, h.operations⟩
  · simpa only [State.enterBlock, h.environment] using hnew
  · simpa only [State.enterBlock, h.environment] using hadd

theorem Twin.leaveFor (h : st.Twin P st') (outer : EnvId) :
    (st.leaveFor outer).Twin P (st'.leaveFor outer) :=
  ⟨rfl, h.store, h.depth, h.readings, h.operations⟩

theorem Twin.leaveFunction (h : st.Twin P st') (caller : EnvId) :
    (st.leaveFunction caller).Twin P (st'.leaveFunction caller) :=
  ⟨rfl, h.store, by simp only [State.leaveFunction, h.depth], h.readings, h.operations⟩

theorem Twin.setField (h : st.Twin P st') (i : InstanceId) (name : String) (v : Value) :
    (st.setField i name v).Twin P (st'.setField i name v) :=
  ⟨h.environment, h.store.setField i name v, h.depth, h.readings, h.operations⟩

/-- A variable of the current environment. -/
theorem Twin.defineHere (hP : P.Lawful) (h : st.Twin P st') {name name' : String}
    (hname : name' = P.rename st.environment name) (v : Value) :
    (st.define name v).Twin P (st'.define name' v) := by
  rw [State.define, State.define, h.environment, hname]
  exact h.define hP st.environment name v

theorem Twin.declareFunction (hP : P.Lawful) (h : st.Twin P st') {f f' : FunDecl Occurrence}
    (hf : f.Twin P.likeness f')
    (hname : P.rename st.environment f.name.lexeme = f.name.lexeme) :
    (st.declareFunction f).Twin P (st'.declareFunction f') := by
  have hfn : Function.Twin P.likeness
      { decl := f, closure := st.environment, isInitializer := false }
      { decl := f', closure := st.environment, isInitializer := false } := ⟨hf, rfl, rfl⟩
  obtain ⟨hnew, hadd⟩ := h.store.addFunction hfn
  refine ⟨h.environment, ?_, h.depth, h.readings, h.operations⟩
  simp only [State.declareFunction, h.environment, hP.spells.token hf.name, hnew]
  have hstore := hadd.define hP st.environment f.name.lexeme
    (.function (st.store.addFunction ⟨f, st.environment, false⟩).1)
  rwa [hname] at hstore

/-- The entry of the log is the same. -/
theorem Twin.declareClass (hP : P.Lawful) (h : st.Twin P st') {name : String}
    (hname : P.rename st.environment name = name) (superclass : Option ClassId)
    {ss ss' ms ms' : List (FunDecl Occurrence)}
    (hss : List.Forall₂ (FunDecl.Twin P.likeness) ss ss')
    (hms : List.Forall₂ (FunDecl.Twin P.likeness) ms ms') :
    (st'.declareClass name superclass ss' ms').1 = (st.declareClass name superclass ss ms).1 ∧
      (st.declareClass name superclass ss ms).2.Twin P
        (st'.declareClass name superclass ss' ms').2 := by
  have hbegin := h.store.define hP st.environment name .nil
  rw [hname] at hbegin
  obtain ⟨hnew, hmade⟩ := hbegin.makeClass hP st.environment name superclass hss hms
  simp only [State.declareClass, h.environment]
  generalize (st.store.define st.environment name .nil).makeClass st.environment name superclass
    ss ms = made, (st'.store.define st.environment name .nil).makeClass st.environment name
    superclass ss' ms' = made' at hnew hmade
  obtain ⟨c, σ⟩ := made
  obtain ⟨c', τ⟩ := made'
  obtain rfl : c' = c := hnew
  -- the name of a class stands for nil while the class is made
  have hend := hmade.define hP st.environment name (.class c')
  rw [hname] at hend
  exact ⟨by simp only [classEntry, hmade.class?, hmade.className], rfl, hend, h.depth,
    h.readings, h.operations⟩

theorem twin_readVariable (hP : P.Lawful) (hs : setup.Twin P setup') (h : st.Twin P st')
    (hr : r.Twin P.likeness.either P.likeness.mark r')
    (hcalls : st.Calls P setup r r'.token.lexeme) :
    Except.Twin P Eq (st.readVariable setup r) (st'.readVariable setup' r') := by
  have hlocals := hs.locals hr.mark
  unfold Calls at hcalls
  unfold readVariable
  rw [← hlocals, h.environment]
  cases hd : setup.locals.distance? r.mark with
  | some d =>
    rw [hd] at hcalls
    exact h.store.getAt hP hcalls
  | none =>
    rw [hd] at hcalls
    exact h.store.get hP hr.token hcalls.1 hcalls.2

/-- The same environment, in which the variable is called what its text becomes. -/
theorem twin_variableOwner (hP : P.Lawful) (hs : setup.Twin P setup') (h : st.Twin P st')
    (hr : r.Twin P.likeness.either P.likeness.mark r')
    (hcalls : st.Calls P setup r r'.token.lexeme) :
    Except.Twin P (fun a a' => a' = a ∧ r'.token.lexeme = P.rename a r.token.lexeme)
      (st.variableOwner setup r) (st'.variableOwner setup' r') := by
  have hlocals := hs.locals hr.mark
  unfold Calls at hcalls
  unfold variableOwner
  rw [← hlocals, h.environment]
  cases hd : setup.locals.distance? r.mark with
  | some d =>
    rw [hd] at hcalls
    simp only [h.store.ancestor]
    cases ha : st.store.ancestor st.environment d with
    | ok a => exact .ok ⟨rfl, hcalls a ha⟩
    | error x =>
      rw [Store.ancestor_error ha]
      exact .error (.fault _)
  | none =>
    rw [hd] at hcalls
    obtain ⟨htext, hname⟩ := hcalls
    have howner := h.store.owner hP hr.token htext hname
    -- the environment that is found is one of those that the names are kept in
    simp only
    generalize hσ : st.store.owner Store.globals r.token = x,
      st'.store.owner Store.globals r'.token = y at howner
    cases howner with
    | error hx => exact .error hx
    | @ok a _ ha =>
      subst ha
      exact .ok ⟨rfl, by rw [htext, hname a (Store.mem_chain_of_owner hσ)]⟩

theorem twin_readSuper (hP : P.Lawful) (hs : setup.Twin P setup') (h : st.Twin P st')
    (hr : P.likeness.Word r r') (ht : P.likeness.token t t') :
    Except.Twin P (Store.Property.Twin P.likeness) (st.readSuper setup r t)
      (st'.readSuper setup' r' t') := by
  unfold readSuper
  rw [← hs.locals hr.mark, h.environment]
  cases setup.locals.distance? r.mark with
  | none => exact .error (.fault _)
  | some d => exact h.store.superMethod hP ht d

theorem twin_callValue (hP : P.Lawful) (h : st.Twin P st') (result : CallResult)
    (c : Completion) : Except.Twin P Eq (st.callValue result c) (st'.callValue result c) := by
  cases result with
  | returned => cases c <;> exact .ok rfl
  | receiver closure =>
    have hthis : Except.Twin P Eq (st.store.getAt closure 0 "this")
        (st'.store.getAt closure 0 "this") :=
      h.store.getAt hP fun a _ => (hP.word a .thisWord).symm
    cases c <;> exact hthis
  | constructed i => exact .ok rfl

theorem twin_initializer (h : st.Twin P st') (c : ClassId) :
    Except.Twin P (Option.Rel (Function.Twin P.likeness)) (st.initializer c)
      (st'.initializer c) := by
  unfold initializer
  rw [h.store.findMethod?]
  cases st.store.findMethod? c "init" with
  | none => exact .ok .none
  | some f =>
    have hf := h.store.function f
    simp only
    generalize st.store.function f = x, st'.store.function f = y at hf
    cases hf with
    | ok hf => exact .ok (.some hf)
    | error hx => exact .error hx

/-- A name is looked for only where the session's own variables are. -/
theorem twin_beginVar (hP : P.Lawful) (h : st.Twin P st') (name : String) :
    (st.beginVar name).Twin P (st'.beginVar (P.rename st.environment name)) := by
  unfold beginVar
  rw [h.environment]
  by_cases hglobals : st.environment = Store.globals
  · rw [← hglobals, h.store.holds hP]
    split
    · rw [State.define, State.define, h.environment]
      exact h.define hP _ _ _
    · exact h
  · simp only [hglobals, decide_false, Bool.false_and, Bool.false_eq_true, if_false]
    exact h

/-! ### Calls -/

section Calls

variable {fn fn' : Function} {arguments : List Value} {paren paren' : Token}

theorem twin_enterFunction (hP : P.Lawful) (h : st.Twin P st') (hfn : fn.Twin P.likeness fn')
    (hparams : P.SuitsParams ⟨st.store.environments.size⟩ fn.decl) (arguments : List Value) :
    (st.enterFunction fn arguments).Twin P (st'.enterFunction fn' arguments) := by
  obtain ⟨hnew, hadd⟩ := h.store.addEnvironment (some fn.closure)
  have hps := hP.spells.names hfn.decl.params hparams
  simp only [enterFunction, hfn.closure, hnew]
  exact ⟨rfl, hadd.defineAll hP _ (hps.imp fun _ _ h => h.2) arguments, by simp [h.depth],
    h.readings, h.operations⟩

theorem twin_enter (hP : P.Lawful) (hs : setup.Twin P setup') (h : st.Twin P st')
    (hk : k.Twin P.likeness extra k') (hfn : fn.Twin P.likeness fn') (result : CallResult)
    (hparams : st.depth < setup.callLimit →
      P.SuitsParams ⟨st.store.environments.size⟩ fn.decl) :
    (st.enter setup fn arguments result k).Twin P extra
      (st'.enter setup' fn' arguments result k') := by
  unfold enter
  rw [hs.callLimit, h.depth, h.environment]
  split
  · exact .aborted h .stackOverflow
  · next hlimit =>
    have hbody : StmtCont.Twin P.likeness extra
        (.seq fn.decl.body (.activation st.environment result k))
        (.seq fn'.decl.body (.activation st.environment result k')) :=
      .seq hfn.decl.body (.activation _ _ hk)
    exact .next ⟨.complete _ hbody,
      twin_enterFunction hP h hfn (hparams (Nat.lt_of_not_le hlimit)) arguments⟩ none

theorem twin_wrongArity (h : st.Twin P st') (ht : P.likeness.token t t') (n m : Nat) :
    (Progress.abort st (.atToken t (.wrongArity n m))).Twin P extra
      (Progress.abort st' (.atToken t' (.wrongArity n m))) :=
  .aborted h (.error (.inl ht) _)

theorem twin_callFunction (hP : P.Lawful) (hs : setup.Twin P setup') (h : st.Twin P st')
    (hk : k.Twin P.likeness extra k') (hfn : fn.Twin P.likeness fn')
    (ht : P.likeness.token paren paren')
    (hparams : arguments.length = fn.decl.arity → st.depth < setup.callLimit →
      P.SuitsParams ⟨st.store.environments.size⟩ fn.decl) :
    (st.callFunction setup fn arguments paren k).Twin P extra
      (st'.callFunction setup' fn' arguments paren' k') := by
  unfold callFunction
  rw [hfn.arity, hfn.isInitializer, hfn.closure]
  split
  · next hlen => exact twin_enter hP hs h hk hfn _ (hparams hlen)
  · exact twin_wrongArity h ht _ _

theorem twin_construct (hP : P.Lawful) (hs : setup.Twin P setup') (h : st.Twin P st')
    (hk : k.Twin P.likeness extra k') (c : ClassId) {init init' : Option Function}
    (hinit : Option.Rel (Function.Twin P.likeness) init init')
    (hparams : ∀ fn ∈ init, st.depth < setup.callLimit →
      P.SuitsParams ⟨st.store.environments.size + 1⟩ fn.decl) :
    (st.construct setup c init arguments k).Twin P extra
      (st'.construct setup' c init' arguments k') := by
  obtain ⟨hnew, hadd⟩ := h.addInstance c
  unfold construct
  generalize hmade : st.addInstance c = made, st'.addInstance c = made' at hnew hadd
  obtain ⟨i, sti⟩ := made
  obtain ⟨i', sti'⟩ := made'
  obtain rfl : i' = i := hnew
  cases hinit with
  | none => exact .next ⟨.deliver _ hk, hadd⟩ none
  | @some fn fn' hfn =>
    obtain ⟨hcopy, hstate⟩ := hadd.copyFor hP hfn (.instance i')
    refine twin_enter hP hs hstate hk hcopy _ fun hlimit => ?_
    -- the receiver of the initializer has the environment before that of the parameters
    have hsize : (sti.copyFor fn (.instance i')).2.store.environments.size =
        st.store.environments.size + 1 := by
      obtain rfl : (st.addInstance c).2 = sti := by rw [hmade]
      simp [State.copyFor, Store.copyFor, State.addInstance, Store.addInstance]
    have hdepth : st.depth < setup.callLimit := by
      obtain rfl : (st.addInstance c).2 = sti := by rw [hmade]
      exact hlimit
    rw [hsize]
    exact hparams fn rfl hdepth

theorem twin_callClass (hP : P.Lawful) (hs : setup.Twin P setup') (h : st.Twin P st')
    (hk : k.Twin P.likeness extra k') (c : ClassId) {init init' : Option Function}
    (hinit : Option.Rel (Function.Twin P.likeness) init init')
    (ht : P.likeness.token paren paren')
    (hparams : ∀ fn ∈ init, arguments.length = fn.decl.arity → st.depth < setup.callLimit →
      P.SuitsParams ⟨st.store.environments.size + 1⟩ fn.decl) :
    (st.callClass setup c init arguments paren k).Twin P extra
      (st'.callClass setup' c init' arguments paren' k') := by
  have harity : (init'.map (·.decl.arity)).getD 0 = (init.map (·.decl.arity)).getD 0 := by
    cases hinit with
    | none => rfl
    | some hfn => exact hfn.arity
  simp only [callClass, harity]
  split
  · next hlen =>
    refine twin_construct hP hs h hk c hinit fun fn hfn => hparams fn hfn ?_
    cases hfn
    exact hlen
  · exact twin_wrongArity h ht _ _

theorem twin_callNative (hs : setup.Twin P setup') (h : st.Twin P st')
    (hk : k.Twin P.likeness extra k') (n : Native) (ht : P.likeness.token paren paren') :
    (st.callNative setup n arguments paren k).Twin P extra
      (st'.callNative setup' n arguments paren' k') := by
  unfold callNative
  split
  · cases n
    obtain ⟨hv, hstate⟩ := h.readClock hs
    simp only [hv]
    exact .next ⟨.deliver _ hk, hstate⟩ none
  · exact twin_wrongArity h ht _ _

/-- A call of twins. -/
theorem twin_call (hP : P.Lawful) (hs : setup.Twin P setup') (h : st.Twin P st')
    (hk : k.Twin P.likeness extra k') (callee : Value) (ht : P.likeness.token paren paren')
    (hsuits : st.SuitsCall P setup callee arguments) :
    (st.call setup callee arguments paren k).Twin P extra
      (st'.call setup' callee arguments paren' k') := by
  cases callee with
  | function f =>
    have hf := h.store.function f
    have hsuits : ∀ fn, st.store.function f = .ok fn → _ := hsuits
    simp only [call]
    generalize st.store.function f = x, st'.store.function f = y at hf hsuits
    cases hf with
    | ok hfn => exact twin_callFunction hP hs h hk hfn ht (hsuits _ rfl)
    | error hx => exact .aborted h hx
  | «class» c =>
    have hinit := twin_initializer h c
    have hsuits : ∀ fn, st.initializer c = .ok (some fn) → _ := hsuits
    simp only [call]
    generalize st.initializer c = x, st'.initializer c = y at hinit hsuits
    cases hinit with
    | ok hinit =>
      refine twin_callClass hP hs h hk c hinit ht fun fn hfn => hsuits fn ?_
      rw [Option.mem_def.1 hfn]
    | error hx => exact .aborted h hx
  | native n => exact twin_callNative hs h hk n ht
  | _ => exact .aborted h (.error (.inl ht) _)

end Calls

/-! ### The four kinds of steps -/

theorem twin_evaluate (hP : P.Lawful) (hs : setup.Twin P setup') (h : st.Twin P st')
    (hk : k.Twin P.likeness extra k') {e e' : ExprCode} (he : e.Twin P.likeness e')
    (hsuits : Config.Suits P setup ⟨.evaluate e k, st⟩) :
    (st.evaluate setup k e).Twin P extra (st'.evaluate setup' k' e') := by
  cases he with
  | literal v => exact .next ⟨.deliver _ hk, h⟩ none
  | «variable» hr =>
    have hcalls : st.Calls P setup _ _ := hsuits
    rw [← hP.spells.name hr.token] at hcalls
    exact Progress.twin_deliverOr h hk
      (twin_readVariable hP hs h ⟨.inr hr.token, hr.mark⟩ hcalls)
  | this hr =>
    have hcalls : st.Calls P setup _ _ := hsuits
    rw [← hP.spells.token hr.token] at hcalls
    exact Progress.twin_deliverOr h hk
      (twin_readVariable hP hs h ⟨.inl hr.token, hr.mark⟩ hcalls)
  | super hr ht =>
    exact Progress.twin_deliverProperty hP h hk (twin_readSuper hP hs h hr ht)
  | assign hr he => exact .next ⟨.evaluate he (.assign hr hk), h⟩ none
  | binary op ha ht hb => exact .next ⟨.evaluate ha (.binaryRight op ht hb hk), h⟩ none
  | logical op ha ht hb => exact .next ⟨.evaluate ha (.logicalRight op hb hk), h⟩ none
  | unary op ht he => exact .next ⟨.evaluate he (.unary op ht hk), h⟩ none
  | ternary ht ha hb hc => exact .next ⟨.evaluate ha (.choose hb hc hk), h⟩ none
  | group he => exact .next ⟨.evaluate he hk, h⟩ none
  | call he ht hes => exact .next ⟨.evaluate he (.callee ht hes hk), h⟩ none
  | field he ht => exact .next ⟨.evaluate he (.field ht hk), h⟩ none
  | setField ha ht hb => exact .next ⟨.evaluate ha (.fieldTarget ht hb hk), h⟩ none

theorem twin_finishClass (hP : P.Lawful) (h : st.Twin P st') {k k' : StmtCont}
    (hk : k.Twin P.likeness extra k') (ht : P.likeness.token t t')
    (hname : P.rename st.environment t.lexeme = t.lexeme) (superclass : Option ClassId)
    {ss ss' ms ms' : List (FunDecl Occurrence)}
    (hss : List.Forall₂ (FunDecl.Twin P.likeness) ss ss')
    (hms : List.Forall₂ (FunDecl.Twin P.likeness) ms ms') :
    (st.finishClass t superclass ss ms k).Twin P extra
      (st'.finishClass t' superclass ss' ms' k') := by
  obtain ⟨hentry, hstate⟩ := h.declareClass hP hname superclass hss hms
  simp only [finishClass, hP.spells.token ht, hentry]
  exact .next ⟨.complete _ hk, hstate⟩ _

theorem twin_execute (hP : P.Lawful) (h : st.Twin P st') {k k' : StmtCont}
    (hk : k.Twin P.likeness extra k') {s s' : Code} (hc : s.Twin P.likeness s') {setup : Setup}
    (hsuits : Config.Suits P setup ⟨.execute s k, st⟩) :
    (st.execute k s).Twin P extra (st'.execute k' s') := by
  cases hc with
  | expression he => exact .next ⟨.evaluate he (.expression hk), h⟩ none
  | print he => exact .next ⟨.evaluate he (.print hk), h⟩ none
  | @var t t' o o' ht ho =>
    have hname : P.text t = P.rename st.environment t.lexeme := by cases o <;> exact hsuits
    rw [← hP.spells.name ht] at hname
    have hbegin := twin_beginVar hP h t.lexeme
    rw [← hname] at hbegin
    cases ho with
    | none =>
      have hhere : t'.lexeme = P.rename (st.beginVar t.lexeme).environment t.lexeme := by
        rw [environment_beginVar, hname]
      exact .next ⟨.complete _ hk, hbegin.defineHere hP hhere _⟩ none
    | some he => exact .next ⟨.evaluate he (.var ht hk), hbegin⟩ none
  | block hb =>
    have hbody : StmtCont.Twin P.likeness extra (.seq _ (.leave st.environment k))
        (.seq _ (.leave st.environment k')) := .seq hb (.leave _ hk)
    rw [← h.environment] at hbody
    simp only [execute]
    rw [← h.environment]
    exact .next ⟨.complete _ hbody, h.enterBlock⟩ none
  | ifThen he hb => exact .next ⟨.evaluate he (.ifThen hb hk), h⟩ none
  | ifElse he hb hr => exact .next ⟨.evaluate he (.ifElse hb hr hk), h⟩ none
  | «while» he hb => exact .next ⟨.evaluate he (.while he hb hk), h⟩ none
  | function hf => exact .next ⟨.complete _ hk, h.declareFunction hP hf hsuits⟩ none
  | «return» ht ho =>
    cases ho with
    | none => exact .next ⟨.complete _ hk, h⟩ none
    | some he => exact .next ⟨.evaluate he (.return hk), h⟩ none
  | «class» ht ho hss hms =>
    cases ho with
    | none => exact twin_finishClass hP h hk ht hsuits none hss hms
    | some hr =>
      exact .next ⟨.evaluate (.variable hr) (.inherit hr.token ht hss hms hk), h⟩ none

theorem twin_argumentsFrom (hP : P.Lawful) (hs : setup.Twin P setup') (h : st.Twin P st')
    (hk : k.Twin P.likeness extra k') (callee : Value) (done : List Value)
    (ht : P.likeness.token t t') {es es' : List ExprCode}
    (hes : List.Forall₂ (Expr.Twin P.likeness) es es')
    (hsuits : es = [] → st.SuitsCall P setup callee done) :
    (st.argumentsFrom setup t callee done es k).Twin P extra
      (st'.argumentsFrom setup' t' callee done es' k') := by
  cases hes with
  | nil => exact twin_call hP hs h hk callee ht (hsuits rfl)
  | cons he hes => exact .next ⟨.evaluate he (.argument ht callee done hes hk), h⟩ none

/-- The operators look at no token but in errors. -/
theorem twin_applyNumbers (ht : P.likeness.token t t') (op : BinaryOp) (a b : Number) :
    Except.Twin P Eq (op.applyNumbers t a b) (op.applyNumbers t' a b) := by
  cases op with
  | divide =>
    simp only [BinaryOp.applyNumbers]
    split
    · exact .error (.error (.inl ht) _)
    · exact .ok rfl
  | _ => exact .ok rfl

theorem twin_applyBinary (ht : P.likeness.token t t') (op : BinaryOp) (v w : Value) :
    Except.Twin P Eq (op.apply t v w) (op.apply t' v w) := by
  unfold BinaryOp.apply
  split
  · exact .ok rfl
  · exact .ok rfl
  · exact twin_applyNumbers ht op _ _
  · exact .ok rfl
  · exact .error (.error (.inl ht) _)
  · exact .error (.error (.inl ht) _)

theorem twin_applyUnary (ht : P.likeness.token t t') (op : UnaryOp) (v : Value) :
    Except.Twin P Eq (op.apply t v) (op.apply t' v) := by
  unfold UnaryOp.apply
  split
  · exact .ok rfl
  · exact .ok rfl
  · exact .error (.error (.inl ht) _)

/-- Only an instance has fields that can be set. -/
theorem twin_requireInstance (ht : P.likeness.token t t') (v : Value) :
    Except.Twin P Eq (Store.requireInstance v t) (Store.requireInstance v t') := by
  cases v with
  | «instance» i => exact .ok rfl
  | _ => exact .error (.error (.inl ht) _)

/-- An assignment finds its variable in the same environment, and there sets the variable that
it is called. -/
theorem twin_deliver_assign (hP : P.Lawful) (hs : setup.Twin P setup') (h : st.Twin P st')
    (v : Value) (hr : P.likeness.Use r r') (hk : k.Twin P.likeness extra k')
    (hcalls : st.Calls P setup r (P.text r.token)) :
    (st.deliver setup v (.assign r k)).Twin P extra (st'.deliver setup' v (.assign r' k')) := by
  rw [← hP.spells.name hr.token] at hcalls
  have howner := twin_variableOwner hP hs h ⟨.inr hr.token, hr.mark⟩ hcalls
  simp only [deliver]
  generalize st.variableOwner setup r = x, st'.variableOwner setup' r' = y at howner
  cases howner with
  | error hx => exact .aborted h hx
  | @ok _ e he =>
    obtain ⟨rfl, htext⟩ := he
    have hdefine := h.define hP e r.token.lexeme v
    rw [← htext] at hdefine
    exact .next ⟨.deliver _ hk, hdefine⟩ none

/-- The target of a field is refused in both, or the value of the field comes next in both. -/
theorem twin_deliver_fieldTarget (h : st.Twin P st') (v : Value) (ht : P.likeness.token t t')
    {e e' : ExprCode} (he : e.Twin P.likeness e') (hk : k.Twin P.likeness extra k') :
    (st.deliver setup v (.fieldTarget t e k)).Twin P extra
      (st'.deliver setup' v (.fieldTarget t' e' k')) := by
  have hrequire := twin_requireInstance ht v
  simp only [deliver]
  generalize Store.requireInstance v t = x, Store.requireInstance v t' = y at hrequire
  cases hrequire with
  | error hx => exact .aborted h hx
  | ok hi =>
    subst hi
    exact .next ⟨.evaluate he (.fieldValue _ ht hk), h⟩ none

theorem twin_deliver (hP : P.Lawful) (hs : setup.Twin P setup') (h : st.Twin P st') (v : Value)
    (hk : k.Twin P.likeness extra k') (hsuits : Config.Suits P setup ⟨.deliver v k, st⟩) :
    (st.deliver setup v k).Twin P extra (st'.deliver setup' v k') := by
  cases hk with
  | answer => exact .value h v
  | assign hr hk => exact twin_deliver_assign hP hs h v hr hk hsuits
  | binaryRight op ht he hk => exact .next ⟨.evaluate he (.binaryDone op ht v hk), h⟩ none
  | binaryDone op ht w hk =>
    exact Progress.twin_deliverMade h hk (twin_applyBinary ht op w v)
  | logicalRight op he hk =>
    simp only [deliver]
    split
    · exact .next ⟨.deliver _ hk, h⟩ none
    · exact .next ⟨.evaluate he hk, h⟩ none
  | unary op ht hk => exact Progress.twin_deliverMade h hk (twin_applyUnary ht op v)
  | choose ha hb hk =>
    simp only [deliver]
    split
    · exact .next ⟨.evaluate ha hk, h⟩ none
    · exact .next ⟨.evaluate hb hk, h⟩ none
  -- where no argument is left, the call itself is made in this step
  | callee ht hes hk =>
    refine twin_argumentsFrom hP hs h hk v [] ht hes fun hnil => ?_
    subst hnil
    exact hsuits
  | argument ht callee done hes hk =>
    refine twin_argumentsFrom hP hs h hk callee (done ++ [v]) ht hes fun hnil => ?_
    subst hnil
    exact hsuits
  | field ht hk => exact Progress.twin_deliverProperty hP h hk (h.store.property hP ht v)
  | fieldTarget ht he hk => exact twin_deliver_fieldTarget h v ht he hk
  | fieldValue i ht hk =>
    simp only [deliver, hP.spells.token ht]
    exact .next ⟨.deliver _ hk, h.setField i _ v⟩ none
  | expression hk =>
    simp only [deliver, hs.interactive, h.store.text hP]
    split
    · exact .next ⟨.complete _ hk, h⟩ _
    · exact .next ⟨.complete _ hk, h⟩ none
  | print hk =>
    simp only [deliver, h.store.text hP]
    exact .next ⟨.complete _ hk, h⟩ _
  | var ht hk =>
    have hname : P.text _ = P.rename st.environment _ := hsuits
    rw [← hP.spells.name ht] at hname
    exact .next ⟨.complete _ hk, h.defineHere hP hname v⟩ none
  | ifThen hb hk =>
    simp only [deliver]
    split
    · exact .next ⟨.execute hb hk, h⟩ none
    · exact .next ⟨.complete _ hk, h⟩ none
  | ifElse hb hr hk =>
    simp only [deliver]
    split
    · exact .next ⟨.execute hb hk, h⟩ none
    · exact .next ⟨.execute hr hk, h⟩ none
  | «while» he hb hk =>
    simp only [deliver]
    split
    · exact .next ⟨.execute hb (.loop he hb hk), h⟩ none
    · exact .next ⟨.complete _ hk, h⟩ none
  | «return» hk => exact .next ⟨.complete _ hk, h⟩ none
  | inherit hu ht hss hms hk =>
    cases v with
    | «class» c => exact twin_finishClass hP h hk ht hsuits (some c) hss hms
    | _ => exact .aborted h (.error (.inr hu) _)

/-- A program goes on however its last statement ended. -/
theorem complete_program (st : State) (c : Completion) (rest : List Code) :
    st.complete c (.program rest) = st.complete .normal (.program rest) := by
  cases rest <;> rfl

theorem twin_complete (hP : P.Lawful) (h : st.Twin P st') (c : Completion) {k k' : StmtCont}
    (hk : k.Twin P.likeness extra k') :
    (st.complete c k).Twin P extra (st'.complete c k') := by
  cases hk with
  | program hss =>
    cases hss with
    | nil => exact .finished h (complete_program st' c extra)
    | cons hs hss => exact .next ⟨.execute hs (.program hss), h⟩ none
  | seq hss hk =>
    cases c with
    | normal =>
      cases hss with
      | nil => exact .next ⟨.complete _ hk, h⟩ none
      | cons hs hss => exact .next ⟨.execute hs (.seq hss hk), h⟩ none
    | returned v => cases hss <;> exact .next ⟨.complete _ hk, h⟩ none
  | leave outer hk => exact .next ⟨.complete _ hk, h.leaveFor outer⟩ none
  | loop he hb hk =>
    cases c with
    | normal => exact .next ⟨.evaluate he (.while he hb hk), h⟩ none
    | returned v => exact .next ⟨.complete _ hk, h⟩ none
  | activation caller result hk =>
    have hleft := h.leaveFunction caller
    exact Progress.twin_deliverOr hleft hk (twin_callValue hP hleft result c)

end State

/-! ## Runs -/

/-- Ends of twins: what cuts them off corresponds. -/
inductive Halt.Twin (P : Pairing) : Halt → Halt → Prop where
  | finished : Twin P .finished .finished
  | value (v : Value) : Twin P (.value v) (.value v)
  | aborted {a a' : Abort} (h : a.Twin P a') : Twin P (.aborted a) (.aborted a')

/-- Runs of twins: they come to corresponding ends, and the same was to be seen. -/
structure Run.Twin (P : Pairing) (r r' : Run) : Prop where
  halt : Option.Rel (Halt.Twin P) r.halt r'.halt
  state : r.state.Twin P r'.state
  recent : r'.recent = r.recent

namespace Config

variable {P : Pairing} {setup setup' : Setup} {extra : List Code} {c c' : Config}

/-- Twin programs start as twins in twin states. -/
theorem twin_ofProgram {st st' : State} {body body' : List Code} (h : st.Twin P st')
    (hbody : List.Forall₂ (Stmt.Twin P.likeness) body body') :
    (ofProgram st body).Twin P [] (ofProgram st' body') := by
  have hcont : StmtCont.Twin P.likeness [] _ _ := .program hbody
  rw [List.append_nil] at hcont
  exact ⟨.complete .normal hcont, h⟩

/-- Twins take the same step. -/
theorem twin_step (hP : P.Lawful) (hs : setup.Twin P setup') (h : c.Twin P extra c')
    (hsuits : c.Suits P setup) : (c.step setup).Twin P extra (c'.step setup') := by
  obtain ⟨control, st⟩ := c
  obtain ⟨control', st'⟩ := c'
  obtain ⟨hcontrol, hstate⟩ := h
  cases hcontrol with
  | evaluate he hk => exact State.twin_evaluate hP hs hstate hk he hsuits
  | execute hc hk => exact State.twin_execute hP hstate hk hc hsuits
  | deliver v hk => exact State.twin_deliver hP hs hstate v hk hsuits
  | complete c hk => exact State.twin_complete hP hstate c hk

/-- How many steps lead on, of at most a number of them. -/
def taken (setup : Setup) : Nat → Config → Nat
  | 0, _ => 0
  | n + 1, c =>
    match c.step setup with
    | .next d _ => d.taken setup n + 1
    | .halt .. => 0

theorem taken_next {d : Config} {event : Option Event} (h : c.step setup = .next d event)
    (n : Nat) : c.taken setup (n + 1) = d.taken setup n + 1 := by
  simp [taken, h]

theorem taken_halt {halt : Halt} {st : State} (h : c.step setup = .halt halt st) (n : Nat) :
    c.taken setup (n + 1) = 0 := by
  simp [taken, h]

/-- The moments after a first step. -/
theorem suits_next {d : Config} {event : Option Event} (h : c.step setup = .next d event) {n : Nat}
    (hsuits : ∀ m < n + 1, ∀ e, c.after? setup m = some e → e.Suits P setup) :
    ∀ m < n, ∀ e, d.after? setup m = some e → e.Suits P setup :=
  fun m hm e he => hsuits (m + 1) (Nat.succ_lt_succ hm) e (by rwa [after?_next h])

/-- Runs of twins are twins, as long as the variables of each step are called what they should
be. By induction on the number of steps, with `twin_step` for the first. -/
theorem twin_runFrom (hP : P.Lawful) (hs : setup.Twin P setup') (h : c.Twin P [] c') {n : Nat}
    (hsuits : ∀ m < n, ∀ d, c.after? setup m = some d → d.Suits P setup) (recent : Transcript) :
    (runFrom setup n c recent).Twin P (runFrom setup' n c' recent) := by
  induction n generalizing c c' recent with
  | zero => exact ⟨.none, h.state, rfl⟩
  | succ n ih =>
    have hstep := twin_step hP hs h (hsuits 0 n.succ_pos c rfl)
    simp only [runFrom]
    generalize hd : c.step setup = p, c'.step setup' = p' at hstep
    cases hstep with
    | next hnext event => exact ih hnext (suits_next hd hsuits) _
    | value hstate v => exact ⟨.some (.value v), hstate, rfl⟩
    | aborted hstate ha => exact ⟨.some (.aborted ha), hstate, rfl⟩
    | finished hstate hp =>
      subst hp
      exact ⟨.some .finished, hstate, rfl⟩

/-- Where the run of a program comes to its end, that of its longer twin goes on with the rest
from a twin state. By induction on the steps: those before the end are steps of twins, and the
last one is no step of the longer program, which is why only the steps taken are counted. -/
theorem exists_runFrom_finished (hP : P.Lawful) (hs : setup.Twin P setup')
    (h : c.Twin P extra c') {n : Nat}
    (hsuits : ∀ m < n, ∀ d, c.after? setup m = some d → d.Suits P setup)
    {recent : Transcript} (hend : (runFrom setup n c recent).halt = some .finished) :
    ∃ st', (runFrom setup n c recent).state.Twin P st' ∧
      ∀ k, runFrom setup' (c.taken setup n + (k + 1)) c' recent =
        runFrom setup' (k + 1) (.ofProgram st' extra) (runFrom setup n c recent).recent := by
  induction n generalizing c c' recent with
  | zero => cases hend
  | succ n ih =>
    have hstep := twin_step hP hs h (hsuits 0 n.succ_pos c rfl)
    generalize hd : c.step setup = p, hd' : c'.step setup' = p' at hstep
    cases hstep with
    | next hnext event =>
      rw [runFrom_next hd] at hend ⊢
      obtain ⟨st', hstate, hrest⟩ := ih hnext (suits_next hd hsuits) hend
      refine ⟨st', hstate, fun k => ?_⟩
      rw [taken_next hd, Nat.add_right_comm, runFrom_next hd', hrest]
    | value =>
      rw [runFrom_halt hd] at hend
      cases hend
    | aborted =>
      rw [runFrom_halt hd] at hend
      cases hend
    | @finished st st' hstate _ hp =>
      rw [runFrom_halt hd]
      refine ⟨st', hstate, fun k => ?_⟩
      -- the longer program does next what it would do if the rest were all of it
      have hsame : (Config.ofProgram st' extra).step setup' = c'.step setup' := by
        rw [hd', hp]
        rfl
      rw [taken_halt hd, Nat.zero_add]
      simp only [runFrom, hsame]

end Config

end Lox
