import Lox.Proofs.Machine.Activations
import Lox.Proofs.Machine.Declared

/-!
# Returns that are allowed

What the evaluator has left to do in a call stands at places of the programs where the returns of
that call are allowed: those of an initializer where the call yields a receiver, any where it
yields what the body returns, and none outside of calls. So a value is returned only inside of a
call, and an initializer returns nil.

## Main definitions

* `Completion.Within`: an end of a statement that certain returns allow
* `StmtCont.returns`: the returns that the innermost call allows
* `Control.Ruled`: what is left to do stands where the returns of its call are allowed

## Main results

* `State.Called.returns`: a function is called as what it was declared as
* `Config.ruled_step`, `Config.ruled_after`: every step and every moment of a run
-/

namespace Lox

/-- The value that the body of a function comes to. -/
def Completion.value : Completion → Value
  | .normal => .nil
  | .returned v => v

/-- An end of a statement that certain returns allow. -/
def Completion.Within : Completion → Returns → Prop
  | .normal, _ => True
  | .returned _, .never => False
  | .returned v, .bare => v = .nil
  | .returned _, .any => True

/-- The returns that are allowed in the body of a function, by what the call yields. -/
def CallResult.returns : CallResult → Returns
  | .returned => .any
  | .receiver _ | .constructed _ => .bare

/-- The returns that the innermost of some calls allows. -/
def Returns.within : List Activation → Returns
  | [] => .never
  | a :: _ => a.result.returns

/-- The returns that are allowed where the end of a statement is waited for. -/
def StmtCont.returns (k : StmtCont) : Returns := .within k.activations

mutual

/-- What is left to do with a value stands where the returns of its call are allowed. -/
def ValueCont.Ruled (K : Site → Prop) : ValueCont → Prop
  | .answer => True
  | .assign _ k | .binaryRight _ _ _ k | .binaryDone _ _ _ k | .logicalRight _ _ k
  | .unary _ _ k | .choose _ _ k | .callee _ _ k | .argument _ _ _ _ k | .field _ k
  | .fieldTarget _ _ k | .fieldValue _ _ k => k.Ruled K
  | .expression k | .print k | .var _ k | .inherit _ _ _ _ k => k.Ruled K
  | .ifThen thenBranch k => (Node.statement thenBranch).StandsIn K k.returns ∧ k.Ruled K
  | .ifElse thenBranch elseBranch k =>
    (Node.statement thenBranch).StandsIn K k.returns ∧
      (Node.statement elseBranch).StandsIn K k.returns ∧ k.Ruled K
  | .while _ body k => (Node.statement body).StandsIn K k.returns ∧ k.Ruled K
  | .return k => k.returns = .any ∧ k.Ruled K

/-- What is left to do after a statement stands where the returns of its call are allowed. -/
def StmtCont.Ruled (K : Site → Prop) : StmtCont → Prop
  | .program rest => (Node.body rest).StandsIn K .never
  | .seq rest k => (Node.body rest).StandsIn K k.returns ∧ k.Ruled K
  | .leave _ k => k.Ruled K
  | .loop _ body k => (Node.statement body).StandsIn K k.returns ∧ k.Ruled K
  | .activation _ _ k => k.Ruled K

end

/-- What is done next, and what is left to do, stands where the returns of its call are allowed. -/
def Control.Ruled (K : Site → Prop) : Control → Prop
  | .evaluate _ k | .deliver _ k => k.Ruled K
  | .execute s k => (Node.statement s).StandsIn K k.returns ∧ k.Ruled K
  | .complete c k => c.Within k.returns ∧ k.Ruled K

/-- What a step that leads somewhere leads to. -/
def Progress.Ruled (p : Progress) (K : Site → Prop) : Prop :=
  match p with
  | .next d _ => d.control.Ruled K
  | .halt .. => True

/-- The functions of a store belong to programs, and what classes have under the name of an
initializer is one. -/
structure Store.Declared (σ : Store) (K : Site → Prop) : Prop where
  /-- The functions. -/
  functions : ∀ f fn, σ.function? f = some fn → fn.DeclaredIn K
  /-- The initializers. -/
  initializes : σ.Initializes

/-- The initializer that a class finds is one. -/
theorem Store.Initializes.findMethod? {σ : Store} (h : σ.Initializes) {c : ClassId} {f : FunId}
    {fn : Function} (hf : σ.findMethod? c "init" = some f) (hfn : σ.function? f = some fn) :
    fn.isInitializer := by
  -- it is that of the class or of one above it
  obtain ⟨d, -, hd⟩ := List.exists_of_findSome?_eq_some hf
  obtain ⟨cls, hcls, hfind⟩ := Option.bind_eq_some_iff.1 hd
  obtain ⟨fn', hfn', hinit⟩ := h d cls hcls f hfind
  obtain rfl := Option.some.inj (hfn.symm.trans hfn')
  exact hinit

section Called

variable {σ : Store} {K : Site → Prop} {l : Locals} {fn : Function} {result : CallResult}

/-- The call of an initializer yields the receiver, and that of another function what the body
returns. -/
theorem State.Called.returns (h : Called σ fn result) (hσ : σ.Declared K) :
    result.returns = fn.returns := by
  cases h with
  | function hfn =>
    unfold Function.returns
    split <;> rfl
  | initializer hfound hfn =>
    have hinit := hσ.initializes.findMethod? hfound hfn
    rw [Function.returns, if_pos hinit]
    rfl

/-- A function that is called is one of the programs. -/
theorem State.Called.declaredIn (h : Called σ fn result) (hσ : σ.Declared K) :
    fn.DeclaredIn K := by
  cases h with
  | function hfn => exact hσ.functions _ _ hfn
  | initializer _ hfn => exact (hσ.functions _ _ hfn).agrees ⟨rfl, rfl⟩

/-- The body of a function that is called stands where the returns of the call are allowed. -/
theorem State.Called.standsIn (h : Called σ fn result) (hσ : σ.Declared K) (hs : Surveyed l K) :
    (Node.body fn.decl.body).StandsIn K result.returns := by
  rw [h.returns hσ]
  exact (h.declaredIn hσ).standsIn hs

end Called

namespace State

variable {st : State} {setup : Setup} {K : Site → Prop} {l : Locals} {k : ValueCont}

theorem ruled_deliverOr (h : k.Ruled K) (r : Except Abort Value) :
    (Progress.deliverOr st r k).Ruled K := by
  cases r with
  | error => trivial
  | ok => exact h

theorem ruled_deliverProperty (h : k.Ruled K) (r : Except Abort Store.Property) :
    (Progress.deliverProperty st r k).Ruled K := by
  cases r with
  | error => trivial
  | ok => exact h

theorem ruled_evaluate (h : k.Ruled K) (e : ExprCode) : (st.evaluate setup k e).Ruled K := by
  cases e with
  | «variable» | this => exact ruled_deliverOr h _
  | super => exact ruled_deliverProperty h _
  | _ => exact h

/-- A statement at a place where the returns of its call are allowed. -/
theorem ruled_execute (hs : Surveyed l K) {s : Code} {k : StmtCont}
    (hsite : (Node.statement s).StandsIn K k.returns) (h : k.Ruled K) :
    (st.execute k s).Ruled K := by
  cases s with
  | var name initializer =>
    cases initializer with
    | none => exact ⟨trivial, h⟩
    | some value => exact h
  | block body => exact ⟨trivial, hsite.block hs, h⟩
  | ifThen => exact ⟨hsite.branch hs rfl, h⟩
  | ifElse => exact ⟨hsite.branch hs rfl, hsite.elseBranch hs, h⟩
  | «while» => exact ⟨hsite.branch hs rfl, h⟩
  | function decl => exact ⟨trivial, h⟩
  | «return» keyword value =>
    -- the resolver has reported what the innermost call does not allow
    obtain ⟨hnever, hbare⟩ := hsite.return_allowed hs
    cases value with
    | none =>
      refine ⟨?_, h⟩
      show (Completion.returned .nil).Within k.returns
      generalize k.returns = r at hnever
      cases r with
      | never => exact absurd rfl hnever
      | bare => rfl
      | any => trivial
    | some value =>
      refine ⟨?_, h⟩
      generalize k.returns = r at hnever hbare
      cases r with
      | never => exact absurd rfl hnever
      | bare => cases hbare rfl
      | any => rfl
  | «class» name superclass statics methods =>
    cases superclass with
    | none => exact ⟨trivial, h⟩
    | some ref => exact h
  | expression | print => exact h

theorem ruled_call (hs : Surveyed l K) (hσ : st.store.Declared K) (h : k.Ruled K) (callee : Value)
    (arguments : List Value) (paren : Token) :
    (st.call setup callee arguments paren k).Ruled K := by
  have hcall := @callStep_call st setup arguments k callee paren
  generalize st.call setup callee arguments paren k = p at hcall
  cases hcall with
  | aborts => trivial
  | yields => exact h
  -- from here on the innermost call is the new one
  | begins hcalled => exact ⟨trivial, hcalled.standsIn hσ hs, h⟩

theorem ruled_argumentsFrom (hs : Surveyed l K) (hσ : st.store.Declared K) (h : k.Ruled K)
    (paren : Token) (callee : Value) (done : List Value) (rest : List ExprCode) :
    (st.argumentsFrom setup paren callee done rest k).Ruled K := by
  cases rest with
  | nil => exact ruled_call hs hσ h callee done paren
  | cons => exact h

theorem ruled_deliver (hs : Surveyed l K) (hσ : st.store.Declared K) (h : k.Ruled K) (v : Value) :
    (st.deliver setup v k).Ruled K := by
  cases k with
  | callee paren arguments k => exact ruled_argumentsFrom (k := k) hs hσ h paren v [] arguments
  | argument paren callee done rest k =>
    exact ruled_argumentsFrom (k := k) hs hσ h paren callee (done ++ [v]) rest
  | binaryDone op t left k => exact ruled_deliverOr (k := k) h _
  | unary op t k => exact ruled_deliverOr (k := k) h _
  | field name k => exact ruled_deliverProperty (k := k) h _
  | assign | fieldTarget =>
    simp only [deliver]
    split
    · exact h
    · trivial
  | logicalRight =>
    simp only [deliver]
    split <;> exact h
  | expression k =>
    simp only [deliver]
    split <;> exact ⟨trivial, h⟩
  | print k | var name k => exact ⟨trivial, h⟩
  | ifThen thenBranch k =>
    obtain ⟨hthen, hk⟩ := h
    simp only [deliver]
    split
    · exact ⟨hthen, hk⟩
    · exact ⟨trivial, hk⟩
  | ifElse thenBranch elseBranch k =>
    obtain ⟨hthen, helse, hk⟩ := h
    refine ⟨?_, hk⟩
    split
    · exact hthen
    · exact helse
  | «while» condition body k =>
    obtain ⟨hbody, hk⟩ := h
    simp only [deliver]
    split
    · exact ⟨hbody, hbody, hk⟩
    · exact ⟨trivial, hk⟩
  | «return» k =>
    obtain ⟨hany, hk⟩ := h
    refine ⟨?_, hk⟩
    rw [hany]
    trivial
  | inherit superclass name statics methods k =>
    cases v with
    | «class» => exact ⟨trivial, h⟩
    | _ => trivial
  | answer => trivial
  | binaryRight | choose | fieldValue => exact h

theorem ruled_complete (hs : Surveyed l K) {completion : Completion} {k : StmtCont}
    (hwithin : completion.Within k.returns) (h : k.Ruled K) :
    (st.complete completion k).Ruled K := by
  cases k with
  | program rest =>
    cases rest with
    | nil => trivial
    | cons s rest => exact ⟨Node.StandsIn.head hs h, Node.StandsIn.tail hs h⟩
  | seq rest k =>
    obtain ⟨hrest, hk⟩ := h
    cases completion with
    | normal =>
      cases rest with
      | nil => exact ⟨trivial, hk⟩
      | cons s rest => exact ⟨hrest.head hs, hrest.tail hs, hk⟩
    | returned v => cases rest <;> exact ⟨hwithin, hk⟩
  | leave outer k => exact ⟨hwithin, h⟩
  | loop condition body k =>
    cases completion with
    | normal => exact h
    | returned v => exact ⟨hwithin, h.2⟩
  -- a value that is returned goes no further
  | activation caller result k => exact ruled_deliverOr (k := k) h _

end State

namespace Config

variable {setup : Setup} {K : Site → Prop} {l : Locals} {c d : Config} {n : Nat}

/-- What is left to do after a step stands where the returns of its call are allowed. -/
theorem ruled_step (hs : Surveyed l K) (hσ : c.state.store.Declared K) (h : c.control.Ruled K) :
    (c.step setup).Ruled K := by
  obtain ⟨control, st⟩ := c
  cases control with
  | evaluate e k => exact State.ruled_evaluate h e
  | execute s k => exact State.ruled_execute hs h.1 h.2
  | deliver v k => exact State.ruled_deliver hs hσ h v
  | complete completion k => exact State.ruled_complete hs h.1 h.2

/-- What is left to do at every moment of a run. -/
theorem ruled_after (hs : Surveyed l K)
    (hσ : ∀ m e, c.after? setup m = some e → e.state.store.Declared K) (h : c.control.Ruled K)
    (hd : c.after? setup n = some d) : d.control.Ruled K := by
  refine invariant_after (P := fun d => d.control.Ruled K) h
    (fun m e he hbefore f event hnext => ?_) hd
  have hafter : (e.step setup).Ruled K := ruled_step hs (hσ m e he) hbefore
  rwa [hnext] at hafter

/-- The functions and the initializers at every moment of a run. -/
theorem declared_after {O : List Origin} (h : c.Fits K O) (hs : Surveyed setup.locals K)
    (hσ : c.state.store.Declared K) (hd : c.after? setup n = some d) :
    d.state.store.Declared K where
  functions := by
    refine functions_after (fun fn fn₀ hagrees h₀ => h₀.agrees hagrees) hσ.functions ?_ hd
    intro m e he fn hfn
    exact (fits_after h hs he).control.declaredIn hs hfn
  initializes := by
    refine invariant_after (P := fun d => d.state.store.Initializes) hσ.initializes
      (fun m e _ hbefore f event hnext => ?_) hd
    have hafter := initializes_step e setup hbefore
    rwa [hnext] at hafter

end Config

end Lox
