import Lox.Proofs.Machine.Moments
import Lox.Proofs.Store.Paths

/-!
# Objects at the moments of a run

The evaluator refers to objects of the store: to the current environment, to those that it returns
to, to values that it has and to receivers. All of them are in the store, and so is everything that
a step makes use of. Hence a step stores no dangling reference, and the store stays linked.

## Main definitions

* `Control.objects`: what is referred to by what is done next
* `State.Holds`: objects are in a linked store, which comes from an earlier one
* `Progress.Linked`, `Config.Linked`: all that is referred to is in the store

## Main results

* `Config.linked_step`: a step
* `Config.linked_after`, `Config.linked_run`: the moments and the end of a run
-/

namespace Lox

/-- The objects that the result of a call refers to. -/
def CallResult.objects : CallResult → List Object
  | .returned => []
  | .receiver closure => [.environment closure]
  | .constructed i => [.instance i]

/-- The objects that the end of a statement refers to. -/
def Completion.objects : Completion → List Object
  | .normal => []
  | .returned v => v.objects

mutual

/-- The objects that a continuation for a value refers to. -/
def ValueCont.objects : ValueCont → List Object
  | .answer => []
  | .assign _ k | .binaryRight _ _ _ k | .logicalRight _ _ k | .unary _ _ k | .choose _ _ k
  | .callee _ _ k | .field _ k | .fieldTarget _ _ k => k.objects
  | .binaryDone _ _ left k => left.objects ++ k.objects
  | .argument _ callee done _ k => callee.objects ++ done.flatMap Value.objects ++ k.objects
  | .fieldValue target _ k => .instance target :: k.objects
  | .expression k | .print k | .var _ k | .ifThen _ k | .ifElse _ _ k | .while _ _ k | .return k
  | .inherit _ _ _ _ k => k.objects

/-- The objects that a continuation for the end of a statement refers to. -/
def StmtCont.objects : StmtCont → List Object
  | .program _ => []
  | .seq _ k | .loop _ _ k => k.objects
  | .leave outer k => .environment outer :: k.objects
  | .activation caller result k => .environment caller :: result.objects ++ k.objects

end

/-- The objects that what is done next refers to. -/
def Control.objects : Control → List Object
  | .evaluate _ k => k.objects
  | .execute _ k => k.objects
  | .deliver v k => v.objects ++ k.objects
  | .complete c k => c.objects ++ k.objects

namespace State

/-- A state whose store comes from an earlier one and has the current environment and some further
objects. -/
structure Holds (st : State) (σ : Store) (os : List Object) : Prop where
  /-- The store comes from the earlier one, and nothing in it dangles. -/
  advances : σ.Advances st.store
  /-- The current environment. -/
  environment : st.store.Has st.environment
  /-- The further objects. -/
  objects : st.store.ContainsAll os

end State

/-- All that a step leads to refers to objects of its store. -/
def Progress.Linked (p : Progress) (σ : Store) : Prop :=
  match p with
  | .next c _ => c.state.Holds σ c.control.objects
  | .halt _ st => st.Holds σ []

section Parts

variable {st st' : State} {σ : Store} {os os' : List Object} {o : Object} {e : EnvId} {v : Value}
  {fn : Function} {name : String} {k : ValueCont} {setup : Setup}

namespace State.Holds

theorem linked (h : st.Holds σ os) : st.store.Linked := h.advances.linked

theorem mono (h : st.Holds σ os) (hos : ∀ o ∈ os', o ∈ os) : st.Holds σ os' :=
  ⟨h.advances, h.environment, fun o ho => h.objects o (hos o ho)⟩

theorem cons (h : st.Holds σ os) (ho : st.store.Contains o) : st.Holds σ (o :: os) :=
  ⟨h.advances, h.environment, Store.containsAll_cons.2 ⟨ho, h.objects⟩⟩

theorem append (h : st.Holds σ os) (hos : st.store.ContainsAll os') : st.Holds σ (os' ++ os) :=
  ⟨h.advances, h.environment, Store.containsAll_append.2 ⟨hos, h.objects⟩⟩

theorem left (h : st.Holds σ (os' ++ os)) : st.store.ContainsAll os' :=
  (Store.containsAll_append.1 h.objects).1

theorem right (h : st.Holds σ (os' ++ os)) : st.Holds σ os :=
  h.mono fun _ => List.mem_append_right _

theorem head (h : st.Holds σ (o :: os)) : st.store.Contains o := h.objects o (List.mem_cons_self ..)

theorem tail (h : st.Holds σ (o :: os)) : st.Holds σ os := h.mono fun _ => List.mem_cons_of_mem _

/-- Changes of the store keep what is there. -/
theorem change (h : st.Holds σ os) (hst : st.store.Advances st'.store)
    (he : st'.store.Has st'.environment) : st'.Holds σ os :=
  ⟨h.advances.trans hst, he, hst.evolves.containsAll h.objects⟩

/-- Changes of the store while the current environment stays. -/
theorem stay (h : st.Holds σ os) (hst : st.store.Advances st'.store)
    (he : st'.environment = st.environment) : st'.Holds σ os :=
  h.change hst (he ▸ hst.evolves.has h.environment)

/-! ## The parts of a step -/

theorem defineIn (h : st.Holds σ os) (e : EnvId) (name : String)
    (hv : st.store.ContainsAll v.objects) : (st.defineIn e name v).Holds σ os :=
  h.stay (h.linked.define hv) rfl

theorem enterBlock (h : st.Holds σ os) :
    st.enterBlock.Holds σ (.environment st.environment :: os) := by
  have hadd : st.store.Advances st.enterBlock.store := h.linked.addEnvironment h.environment
  have hinner : st.enterBlock.Holds σ os := h.change hadd (Store.has_addEnvironment_self _)
  exact hinner.cons (hadd.evolves.has h.environment)

theorem enterFunction (h : st.Holds σ os) (hfn : st.store.Has fn.closure) {arguments : List Value}
    (hargs : st.store.ContainsAll (arguments.flatMap Value.objects)) :
    (st.enterFunction fn arguments).Holds σ (.environment st.environment :: os) := by
  have hadd : st.store.Advances (st.store.addEnvironment (some fn.closure)).2 :=
    h.linked.addEnvironment hfn
  -- the parameters are set in the new environment
  have hparams : (st.store.addEnvironment (some fn.closure)).2.Advances
      (st.enterFunction fn arguments).store := by
    refine hadd.linked.defineAll fun x hx => hadd.evolves.containsAll fun o ho => ?_
    exact hargs o (List.mem_flatMap.2 ⟨x.2, (List.of_mem_zip hx).2, ho⟩)
  have hall := hadd.trans hparams
  have hinner : (st.enterFunction fn arguments).Holds σ os :=
    h.change hall (hparams.evolves.has (Store.has_addEnvironment_self _))
  exact hinner.cons (hall.evolves.has h.environment)

/-- An environment that was left becomes the current one again. -/
theorem returnTo (h : st.Holds σ (.environment e :: os)) (hst : st'.store = st.store)
    (he : st'.environment = e) : st'.Holds σ os :=
  h.tail.change (hst ▸ h.linked.refl) (by rw [he, hst]; exact h.head)

theorem addInstance (h : st.Holds σ os) {c : ClassId} (hc : st.store.Contains (.class c)) :
    (st.addInstance c).2.Holds σ (.instance (st.addInstance c).1 :: os) := by
  have hadd : (st.addInstance c).2.Holds σ os := h.stay (h.linked.addInstance hc) rfl
  exact hadd.cons ⟨_, Store.instance?_addInstance_self _ _⟩

theorem copyFor (h : st.Holds σ os) (hfn : st.store.Has fn.closure)
    (hv : st.store.ContainsAll v.objects) :
    (st.copyFor fn v).2.Holds σ (.environment (st.copyFor fn v).1.closure :: os) := by
  obtain ⟨hcopy, hclosure⟩ := h.linked.copyFor hfn hv
  have hnext : (st.copyFor fn v).2.Holds σ os := h.stay hcopy rfl
  exact hnext.cons hclosure

theorem realize (h : st.Holds σ os) {p : Store.Property} (hp : st.store.ContainsAll p.objects) :
    (st.realize p).2.Holds σ ((st.realize p).1.objects ++ os) := by
  obtain ⟨hrealize, hvalue⟩ := h.linked.realize hp
  have hnext : (st.realize p).2.Holds σ os := h.stay hrealize rfl
  exact hnext.append hvalue

theorem beginVar (h : st.Holds σ os) (name : String) : (st.beginVar name).Holds σ os := by
  unfold State.beginVar
  split
  · exact h.defineIn _ _ Store.containsAll_nil
  · exact h

theorem declareFunction (h : st.Holds σ os) (decl : FunDecl Occurrence) :
    (st.declareFunction decl).Holds σ os := by
  have hadd := h.linked.addFunction ⟨decl, st.environment, false⟩ h.environment
  have hname : (st.store.addFunction ⟨decl, st.environment, false⟩).2.Advances
      (st.declareFunction decl).store := by
    refine hadd.linked.define (Store.containsAll_cons.2 ⟨?_, Store.containsAll_nil⟩)
    exact ⟨_, Store.function?_addFunction_self _ _⟩
  exact h.stay (hadd.trans hname) rfl

theorem declareClass (h : st.Holds σ os) (name : String) {s : Option ClassId}
    (hs : ∀ c, s = some c → st.store.Contains (.class c))
    (statics methods : List (FunDecl Occurrence)) :
    (st.declareClass name s statics methods).2.Holds σ os := by
  have hbegin : st.store.Advances (st.store.define st.environment name .nil) :=
    h.linked.define Store.containsAll_nil
  obtain ⟨hmake, hclass⟩ := hbegin.linked.makeClass (hbegin.evolves.has h.environment) name
    (fun c hc => hbegin.evolves.contains (hs c hc)) statics methods
  have hname : ((st.store.define st.environment name .nil).makeClass st.environment name s statics
      methods).2.Advances (st.declareClass name s statics methods).2.store :=
    hmake.linked.define (Store.containsAll_cons.2 ⟨hclass, Store.containsAll_nil⟩)
  exact h.stay (hbegin.trans (hmake.trans hname)) rfl

end State.Holds

/-! ## Look-ups -/

namespace State

theorem linked_readVariable (h : st.store.Linked) {ref : Ref Occurrence}
    (hv : st.readVariable setup ref = .ok v) : st.store.ContainsAll v.objects := by
  unfold readVariable at hv
  split at hv
  · exact h.getAt hv
  · exact h.get hv

theorem linked_readSuper (h : st.store.Linked) {ref : Ref Occurrence} {method : Token}
    {p : Store.Property} (hp : st.readSuper setup ref method = .ok p) :
    st.store.ContainsAll p.objects := by
  unfold readSuper at hp
  split at hp
  · exact h.superMethod hp
  · cases hp

/-- The result of a call. -/
theorem linked_callValue (h : st.store.Linked) {result : CallResult} {c : Completion}
    (hresult : st.store.ContainsAll (result.objects ++ c.objects))
    (hv : st.callValue result c = .ok v) : st.store.ContainsAll v.objects := by
  obtain ⟨hresult, hc⟩ := Store.containsAll_append.1 hresult
  cases result with
  | returned =>
    cases c with
    | normal =>
      cases hv
      exact Store.containsAll_nil
    | returned w =>
      cases hv
      exact hc
  | receiver closure =>
    have hthis : st.store.getAt closure 0 "this" = .ok v := by simpa only [callValue] using hv
    exact h.getAt hthis
  | constructed i =>
    cases hv
    exact hresult

/-- Operators make values of their own. -/
theorem objects_applyUnary {op : UnaryOp} {t : Token} {w : Value} (hv : op.apply t w = .ok v) :
    v.objects = [] := by
  unfold UnaryOp.apply at hv
  split at hv <;> cases hv <;> rfl

theorem objects_applyNumbers {op : BinaryOp} {t : Token} {a b : Number}
    (hv : op.applyNumbers t a b = .ok v) : v.objects = [] := by
  cases op with
  | divide =>
    unfold BinaryOp.applyNumbers at hv
    dsimp only at hv
    split at hv <;> cases hv
    rfl
  | _ =>
    cases hv
    rfl

theorem objects_applyBinary {op : BinaryOp} {t : Token} {a b : Value}
    (hv : op.apply t a b = .ok v) : v.objects = [] := by
  unfold BinaryOp.apply at hv
  split at hv
  · cases hv
    rfl
  · cases hv
    rfl
  · exact objects_applyNumbers hv
  · cases hv
    rfl
  · cases hv
  · cases hv

end State

/-! ## Steps -/

namespace State

theorem linked_abort (h : st.Holds σ os) (a : Abort) : (Progress.abort st a).Linked σ :=
  h.mono (by simp)

theorem linked_deliverOr (h : st.Holds σ k.objects) {r : Except Abort Value}
    (hr : ∀ v, r = .ok v → st.store.ContainsAll v.objects) :
    (Progress.deliverOr st r k).Linked σ := by
  cases r with
  | error a => exact linked_abort h a
  | ok v => exact h.append (hr v rfl)

theorem linked_deliverMade (h : st.Holds σ k.objects) {r : Except Abort Value}
    (hr : ∀ v, r = .ok v → st.store.ContainsAll v.objects) :
    (Progress.deliverMade st r k).Linked σ := by
  have hst : st.operate.Holds σ k.objects := ⟨h.advances, h.environment, h.objects⟩
  refine linked_deliverOr hst fun w hw => ?_
  cases r with
  | error a => cases hw
  | ok v =>
    cases hw
    rw [Value.objects_made]
    exact hr v rfl

theorem linked_deliverProperty (h : st.Holds σ k.objects) {r : Except Abort Store.Property}
    (hr : ∀ p, r = .ok p → st.store.ContainsAll p.objects) :
    (Progress.deliverProperty st r k).Linked σ := by
  cases r with
  | error a => exact linked_abort h a
  | ok p => exact h.realize (hr p rfl)

theorem linked_evaluate (h : st.Holds σ k.objects) (e : ExprCode) :
    (st.evaluate setup k e).Linked σ := by
  cases e with
  | literal value => cases value <;> exact h
  | «variable» ref | this ref =>
    exact linked_deliverOr h fun v hv => linked_readVariable h.linked hv
  | super ref method => exact linked_deliverProperty h fun p hp => linked_readSuper h.linked hp
  | _ => exact h

theorem linked_finishClass {k : StmtCont} (h : st.Holds σ k.objects) (name : Token)
    {s : Option ClassId} (hs : ∀ c, s = some c → st.store.Contains (.class c))
    (statics methods : List (FunDecl Occurrence)) :
    (st.finishClass name s statics methods k).Linked σ :=
  h.declareClass name.lexeme hs statics methods

theorem linked_execute {k : StmtCont} (h : st.Holds σ k.objects) (s : Code) :
    (st.execute k s).Linked σ := by
  cases s with
  | var name initializer =>
    have hbegin : (st.beginVar name.lexeme).Holds σ k.objects := h.beginVar name.lexeme
    cases initializer with
    | none => exact hbegin.defineIn _ _ Store.containsAll_nil
    | some value => exact hbegin
  | block body => exact h.enterBlock
  | function decl => exact h.declareFunction decl
  | «return» keyword value => cases value <;> exact h
  | «class» name superclass statics methods =>
    cases superclass with
    | none => exact linked_finishClass h name (s := none) nofun statics methods
    | some ref => exact h
  | _ => exact h

/-! ## Calls -/

theorem linked_enter {result : CallResult} (h : st.Holds σ (result.objects ++ k.objects))
    (hfn : st.store.Has fn.closure) {arguments : List Value}
    (hargs : st.store.ContainsAll (arguments.flatMap Value.objects)) :
    (st.enter setup fn arguments result k).Linked σ := by
  unfold enter
  split
  · exact linked_abort h _
  · exact h.enterFunction hfn hargs

/-- The initializer of a class is copied for the new instance. -/
theorem linked_construct (h : st.Holds σ k.objects) {c : ClassId}
    (hc : st.store.Contains (.class c)) (hfn : st.store.Has fn.closure) {arguments : List Value}
    (hargs : st.store.ContainsAll (arguments.flatMap Value.objects)) :
    (((st.addInstance c).2.copyFor fn (.instance (st.addInstance c).1)).2.enter setup
      ((st.addInstance c).2.copyFor fn (.instance (st.addInstance c).1)).1 arguments
      (.constructed (st.addInstance c).1) k).Linked σ := by
  have hmade := h.addInstance hc
  have hev : st.store.Evolves (st.addInstance c).2.store := Store.evolves_addInstance c
  have hreceiver : (st.addInstance c).2.store.ContainsAll
      (Value.instance (st.addInstance c).1).objects :=
    Store.containsAll_cons.2 ⟨hmade.head, Store.containsAll_nil⟩
  have hcopied := hmade.copyFor (hev.has hfn) hreceiver
  obtain ⟨hcopy, -⟩ := hmade.linked.copyFor (hev.has hfn) hreceiver
  exact linked_enter hcopied.tail hcopied.head (hcopy.evolves.containsAll (hev.containsAll hargs))

theorem linked_call (h : st.Holds σ k.objects) {callee : Value}
    (hcallee : st.store.ContainsAll callee.objects) {arguments : List Value}
    (hargs : st.store.ContainsAll (arguments.flatMap Value.objects)) (paren : Token) :
    (st.call setup callee arguments paren k).Linked σ := by
  have hform := st.callForm_call setup callee arguments paren
  generalize st.call setup callee arguments paren = call at hform ⊢
  cases hform with
  | refused | noFunction | noInitializer => exact linked_abort h _
  | clock => exact h.stay h.linked.refl rfl
  | bare => exact h.addInstance (hcallee _ (List.mem_singleton_self _))
  | function hfn =>
    have hclosure := h.linked.closures hfn
    refine linked_enter (h.append ?_) hclosure hargs
    split
    · exact Store.containsAll_cons.2 ⟨hclosure, Store.containsAll_nil⟩
    · exact Store.containsAll_nil
  | initializer hinit =>
    obtain ⟨f, -, hf⟩ := exists_of_initializer hinit
    exact linked_construct h (hcallee _ (List.mem_singleton_self _)) (h.linked.closures hf) hargs

theorem linked_argumentsFrom (h : st.Holds σ k.objects) {callee : Value} {done : List Value}
    (hcallee : st.store.ContainsAll callee.objects)
    (hdone : st.store.ContainsAll (done.flatMap Value.objects)) (paren : Token)
    (rest : List ExprCode) :
    (st.argumentsFrom setup paren callee done rest k).Linked σ := by
  cases rest with
  | nil => exact linked_call h hcallee hdone paren
  | cons => exact h.append (Store.containsAll_append.2 ⟨hcallee, hdone⟩)

/-! ## Values and ends of statements -/

theorem linked_deliver (h : st.Holds σ (v.objects ++ k.objects)) :
    (st.deliver setup v k).Linked σ := by
  have hv : st.store.ContainsAll v.objects := h.left
  have hk : st.Holds σ k.objects := h.right
  cases k with
  | assign name k =>
    simp only [deliver]
    split
    · exact h.defineIn _ _ hv
    · exact linked_abort h _
  | binaryDone op t left k =>
    have hrest : st.Holds σ k.objects := State.Holds.right hk
    refine linked_deliverMade hrest fun w hw => ?_
    rw [objects_applyBinary hw]
    exact Store.containsAll_nil
  | unary op t k =>
    have hrest : st.Holds σ k.objects := hk
    refine linked_deliverMade hrest fun w hw => ?_
    rw [objects_applyUnary hw]
    exact Store.containsAll_nil
  | logicalRight op right k =>
    simp only [deliver]
    split
    · exact h
    · exact hk
  | ifThen | «while» =>
    simp only [deliver]
    split <;> exact hk
  | callee paren arguments k =>
    have hrest : st.Holds σ k.objects := hk
    refine linked_argumentsFrom hrest hv ?_ paren arguments
    exact Store.containsAll_nil
  | argument paren callee done rest k =>
    have hcont : st.Holds σ (callee.objects ++ done.flatMap Value.objects ++ k.objects) := hk
    obtain ⟨hcallee, hdone⟩ := Store.containsAll_append.1 hcont.left
    refine linked_argumentsFrom hcont.right hcallee ?_ paren rest
    rw [List.flatMap_append, List.flatMap_singleton]
    exact Store.containsAll_append.2 ⟨hdone, hv⟩
  | field name k =>
    have hrest : st.Holds σ k.objects := hk
    exact linked_deliverProperty hrest fun p hp => h.linked.property hv hp
  | fieldTarget name value k =>
    cases v with
    | «instance» i => exact h
    | _ => exact linked_abort h _
  | fieldValue target name k =>
    -- the target waited for the value in the continuation
    have hrest : st.Holds σ (.instance target :: k.objects) := hk
    have hnext : st.Holds σ (v.objects ++ k.objects) := hrest.tail.append hv
    exact hnext.stay (h.linked.setField hv) rfl
  | expression k =>
    simp only [deliver]
    split <;> exact hk
  | var name k =>
    have hrest : st.Holds σ k.objects := hk
    exact hrest.defineIn _ _ hv
  | inherit superclass name statics methods k =>
    cases v with
    | «class» c =>
      have hrest : st.Holds σ k.objects := hk
      have hc : st.store.Contains (.class c) := hv _ (List.mem_singleton_self _)
      exact linked_finishClass hrest name (s := some c) (fun d hd => by cases hd; exact hc) statics
        methods
    | _ => exact linked_abort h _
  | answer => exact hk
  | «return» | binaryRight => exact h
  | choose | ifElse | print => exact hk

theorem linked_complete {c : Completion} {k : StmtCont} (h : st.Holds σ (c.objects ++ k.objects)) :
    (st.complete c k).Linked σ := by
  cases k with
  | program rest => cases rest <;> exact h.right
  | seq rest k =>
    cases c with
    | normal => cases rest <;> exact h
    | returned v => exact h
  | leave outer k =>
    have hboth : st.Holds σ (c.objects ++ .environment outer :: k.objects) := h
    exact (hboth.right.tail.append h.left).cons hboth.right.head |>.returnTo rfl rfl
  | loop condition body k => cases c <;> exact h
  | activation caller result k =>
    have hboth : st.Holds σ (.environment caller :: (result.objects ++ k.objects)) := h.right
    have hleft : (st.leaveFunction caller).Holds σ (result.objects ++ k.objects) :=
      hboth.returnTo rfl rfl
    refine linked_deliverOr hleft.right fun v hv => ?_
    exact linked_callValue hleft.linked (Store.containsAll_append.2 ⟨hleft.left, h.left⟩) hv

end State

end Parts

namespace Config

variable {setup : Setup} {σ : Store} {c d : Config} {n : Nat}

/-- All that a configuration refers to is in its store, which comes from an earlier one. -/
def Linked (c : Config) (σ : Store) : Prop := c.state.Holds σ c.control.objects

/-- A step stores no dangling reference. -/
theorem linked_step (h : c.Linked σ) (setup : Setup) : (c.step setup).Linked σ := by
  obtain ⟨control, st⟩ := c
  cases control with
  | evaluate e k => exact State.linked_evaluate h e
  | execute s k => exact State.linked_execute h s
  | deliver v k => exact State.linked_deliver h
  | complete c k => exact State.linked_complete h

/-- The moments of a run. -/
theorem linked_after (h : c.Linked σ) (hd : c.after? setup n = some d) : d.Linked σ := by
  refine invariant_after (P := fun d => d.Linked σ) h (fun m e _ he f event hnext => ?_) hd
  have hstep := linked_step he setup
  rwa [hnext] at hstep

/-- The end of a run. -/
theorem linked_run (h : c.Linked σ) (setup : Setup) (n : Nat) :
    (c.run setup n).state.Holds σ [] := by
  refine state_run (Q := fun st => st.Holds σ []) (fun m d hd => ?_) n
  have hmoment := linked_after h hd
  refine ⟨hmoment.mono (by simp), ?_⟩
  have hlast := linked_step hmoment setup
  cases hstep : d.step setup with
  | next e event =>
    rw [hstep] at hlast
    exact hlast.mono (by simp)
  | halt halt st =>
    rw [hstep] at hlast
    exact hlast

end Config

end Lox
