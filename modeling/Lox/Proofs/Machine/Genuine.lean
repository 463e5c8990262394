import Lox.Proofs.Machine.Declared
import Lox.Proofs.Machine.Words

/-!
# Genuine code in a run

What is left to do consists of parts of genuine trees, as long as the functions of the store were
declared by such. Then no step sets a variable under a reserved word: whatever values are handed
on, what `this` stands for in an environment stays the same. Nor does an instance ever change its
class.

## Main definitions

* `Control.Genuine`, `Store.Genuine`: what is left to do, and the functions of a store, are genuine
* `Config.Genuine`: both

## Main results

* `Config.genuine_after`: at every moment of a run
* `Config.binding?_keyword`: what a reserved word stands for at a later moment
* `Config.retains_step`, `Config.Steps.retains`: the classes of instances
-/

namespace Lox

mutual

/-- What is left to do with a value is genuine. -/
def ValueCont.Genuine : ValueCont → Prop
  | .answer => True
  | .assign name k => name.token.IsName ∧ k.Genuine
  | .binaryRight _ _ right k | .logicalRight _ right k => right.Genuine ∧ k.Genuine
  | .binaryDone _ _ _ k | .unary _ _ k | .field _ k | .fieldValue _ _ k => k.Genuine
  | .choose whenTrue whenFalse k => whenTrue.Genuine ∧ whenFalse.Genuine ∧ k.Genuine
  | .callee _ arguments k | .argument _ _ _ arguments k => Expr.GenuineAll arguments ∧ k.Genuine
  | .fieldTarget _ value k => value.Genuine ∧ k.Genuine
  | .expression k | .print k | .return k => k.Genuine
  | .var name k => name.IsName ∧ k.Genuine
  | .ifThen thenBranch k => thenBranch.Genuine ∧ k.Genuine
  | .ifElse thenBranch elseBranch k => thenBranch.Genuine ∧ elseBranch.Genuine ∧ k.Genuine
  | .while condition body k => condition.Genuine ∧ body.Genuine ∧ k.Genuine
  | .inherit _ name statics methods k => name.IsName ∧ Stmt.GenuineFunctions statics ∧
      Stmt.GenuineFunctions methods ∧ k.Genuine

/-- What is left to do after a statement is genuine. -/
def StmtCont.Genuine : StmtCont → Prop
  | .program rest => Stmt.GenuineAll rest
  | .seq rest k => Stmt.GenuineAll rest ∧ k.Genuine
  | .leave _ k => k.Genuine
  | .loop condition body k => condition.Genuine ∧ body.Genuine ∧ k.Genuine
  | .activation _ _ k => k.Genuine

end

/-- What is done next, and what is left to do, is genuine. -/
def Control.Genuine : Control → Prop
  | .evaluate e k => e.Genuine ∧ k.Genuine
  | .execute s k => s.Genuine ∧ k.Genuine
  | .deliver _ k => k.Genuine
  | .complete _ k => k.Genuine

/-- The functions of a store have genuine declarations. -/
def Store.Genuine (σ : Store) : Prop :=
  ∀ f fn, σ.function? f = some fn → Stmt.GenuineFunction fn.decl

/-- What is left to do and what can be called is genuine. -/
structure Config.Genuine (c : Config) : Prop where
  /-- What is left to do. -/
  control : c.control.Genuine
  /-- What can be called. -/
  functions : c.state.store.Genuine

/-- What a step that leads somewhere leads to. -/
def Progress.Genuine : Progress → Prop
  | .next d _ => d.control.Genuine
  | .halt .. => True

/-- A step keeps the classes and what instances are instances of. -/
def Progress.Retains (p : Progress) (σ : Store) : Prop := σ.Retains p.state.store

theorem Control.Genuine.sets_ne {control : Control} (h : control.Genuine) (k : Keyword) :
    k.text ∉ control.sets := by
  have hname : ∀ {t : Token}, t.IsName → k.text ∉ [t.lexeme] := fun ht hk =>
    ht.ne_text k (List.mem_singleton.1 hk).symm
  cases control with
  | execute s =>
    cases s with
    | var => exact hname h.1.1
    | function => exact hname (Stmt.GenuineFunction.name h.1)
    | «class» name superclass =>
      cases superclass with
      | none => exact hname h.1.1
      | some => exact List.not_mem_nil
    | _ => exact List.not_mem_nil
  | deliver v k =>
    cases k with
    | assign | var | inherit => exact hname h.1
    | _ => exact List.not_mem_nil
  | evaluate | complete => exact List.not_mem_nil

/-- What is declared next is genuine. -/
theorem Control.Genuine.declares {control : Control} (h : control.Genuine) {fn : Function}
    (hfn : control.Declares fn) : Stmt.GenuineFunction fn.decl := by
  have hclass : ∀ {statics methods : List (FunDecl Occurrence)}, Stmt.GenuineFunctions statics →
      Stmt.GenuineFunctions methods → (fn.decl ∈ methods ∧ fn.isInitializer = fn.decl.isInitName) ∨
        (fn.decl ∈ statics ∧ fn.isInitializer = false) → Stmt.GenuineFunction fn.decl := by
    rintro statics methods hstatics hmethods (⟨hmem, -⟩ | ⟨hmem, -⟩)
    · exact Stmt.genuineFunctions_iff.1 hmethods _ hmem
    · exact Stmt.genuineFunctions_iff.1 hstatics _ hmem
  cases control with
  | execute s =>
    cases s with
    | function decl =>
      rw [hfn.1]
      exact h.1
    | «class» =>
      obtain ⟨⟨-, -, hstatics, hmethods⟩, -⟩ := h
      exact hclass hstatics hmethods hfn
    | _ => exact hfn.elim
  | deliver v k =>
    cases k with
    | inherit =>
      obtain ⟨-, hstatics, hmethods, -⟩ := h
      exact hclass hstatics hmethods hfn
    | _ => exact hfn.elim
  | evaluate | complete => exact hfn.elim

namespace State

variable {st : State} {setup : Setup} {k : ValueCont}

/-! ## Genuine steps -/

theorem genuine_deliverOr (h : k.Genuine) (r : Except Abort Value) :
    (Progress.deliverOr st r k).Genuine := by
  cases r with
  | error => trivial
  | ok => exact h

theorem genuine_deliverProperty (h : k.Genuine) (r : Except Abort Store.Property) :
    (Progress.deliverProperty st r k).Genuine := by
  cases r with
  | error => trivial
  | ok => exact h

/-- The function that is called is one of the store, or a copy of one. -/
theorem Called.genuine {σ : Store} {fn : Function} {result : CallResult} (h : Called σ fn result)
    (hσ : σ.Genuine) : Stmt.GenuineFunction fn.decl := by
  cases h with
  | function hfn => exact hσ _ _ hfn
  | initializer _ hfn =>
    -- the copy that gets the receiver has the same declaration
    have hgenuine := hσ _ _ hfn
    exact hgenuine

theorem genuine_argumentsFrom (hσ : st.store.Genuine) (h : k.Genuine) (paren : Token)
    (callee : Value) (done : List Value) {rest : List ExprCode} (hrest : Expr.GenuineAll rest) :
    (st.argumentsFrom setup paren callee done rest k).Genuine := by
  cases rest with
  | nil =>
    have hcall := @callStep_call st setup done k callee paren
    simp only [argumentsFrom]
    generalize st.call setup callee done paren k = p at hcall
    cases hcall with
    | aborts => trivial
    | yields => exact h
    | begins hcalled => exact ⟨(hcalled.genuine hσ).body, h⟩
  | cons e rest => exact ⟨hrest.1, hrest.2, h⟩

theorem genuine_evaluate {e : ExprCode} (he : e.Genuine) (h : k.Genuine) :
    (st.evaluate setup k e).Genuine := by
  cases e with
  | «variable» | this => exact genuine_deliverOr h _
  | super => exact genuine_deliverProperty h _
  | literal => exact h
  | assign => exact ⟨he.2, he.1, h⟩
  | binary | logical | call | setField => exact ⟨he.1, he.2, h⟩
  | unary | group | field => exact ⟨he, h⟩
  | ternary => exact ⟨he.1, he.2.1, he.2.2, h⟩

theorem genuine_execute {s : Code} {k : StmtCont} (hs : s.Genuine) (h : k.Genuine) :
    (st.execute k s).Genuine := by
  cases s with
  | expression | print => exact ⟨hs, h⟩
  | var name initializer =>
    cases initializer with
    | none => exact h
    | some value => exact ⟨hs.2, hs.1, h⟩
  | block => exact ⟨hs, h⟩
  | ifThen => exact ⟨hs.1, hs.2.1, h⟩
  | ifElse => exact ⟨hs.1, hs.2.1, hs.2.2.1, h⟩
  | «while» => exact ⟨hs.1, hs.1, hs.2.1, h⟩
  | function => exact h
  | «return» keyword value =>
    cases value with
    | none => exact h
    | some value => exact ⟨hs, h⟩
  | «class» name superclass =>
    obtain ⟨hname, hsuper, hstatics, hmethods⟩ := hs
    cases superclass with
    | none => exact h
    | some r => exact ⟨hsuper r rfl, hname, hstatics, hmethods, h⟩

theorem genuine_deliver (hσ : st.store.Genuine) (v : Value) (h : k.Genuine) :
    (st.deliver setup v k).Genuine := by
  cases k with
  | callee paren arguments k => exact genuine_argumentsFrom hσ h.2 paren v [] h.1
  | argument paren callee done rest k =>
    exact genuine_argumentsFrom hσ h.2 paren callee (done ++ [v]) h.1
  | binaryDone op t left k => exact genuine_deliverOr (k := k) h _
  | unary op t k => exact genuine_deliverOr (k := k) h _
  | field name k => exact genuine_deliverProperty (k := k) h _
  | assign name k =>
    simp only [deliver]
    split
    · exact h.2
    · trivial
  | fieldTarget =>
    simp only [deliver]
    split
    · exact h
    · trivial
  | logicalRight =>
    simp only [deliver]
    split
    · exact h.2
    · exact h
  | expression =>
    simp only [deliver]
    split <;> exact h
  | ifThen =>
    simp only [deliver]
    split
    · exact h
    · exact h.2
  | ifElse =>
    obtain ⟨hthen, helse, hk⟩ := h
    refine ⟨?_, hk⟩
    split
    · exact hthen
    · exact helse
  | choose =>
    obtain ⟨htrue, hfalse, hk⟩ := h
    refine ⟨?_, hk⟩
    split
    · exact htrue
    · exact hfalse
  | «while» =>
    obtain ⟨hcondition, hbody, hk⟩ := h
    simp only [deliver]
    split
    · exact ⟨hbody, hcondition, hbody, hk⟩
    · exact hk
  | inherit =>
    obtain ⟨-, -, -, hk⟩ := h
    cases v with
    | «class» => exact hk
    | _ => trivial
  | answer => trivial
  | binaryRight | fieldValue | print | «return» => exact h
  | var => exact h.2

theorem genuine_complete (c : Completion) {k : StmtCont} (h : k.Genuine) :
    (st.complete c k).Genuine := by
  cases k with
  | program rest =>
    cases rest with
    | nil => trivial
    | cons => exact h
  | seq rest k =>
    obtain ⟨hrest, hk⟩ := h
    cases c with
    | normal =>
      cases rest with
      | nil => exact hk
      | cons => exact ⟨hrest.1, hrest.2, hk⟩
    | returned => cases rest <;> exact hk
  | leave => exact h
  | loop =>
    cases c with
    | normal => exact ⟨h.1, h⟩
    | returned => exact h.2.2
  | activation caller result k => exact genuine_deliverOr (k := k) h _

/-! ## Steps and instances -/

theorem retains_enterFunction (st : State) (fn : Function) (arguments : List Value) :
    st.store.Retains (st.enterFunction fn arguments).store := by
  have hadd : st.store.Retains (st.store.addEnvironment (some fn.closure)).2 := .of_eq rfl rfl
  exact hadd.trans Store.retains_defineAll

theorem retains_declareClass (name : String) (s : Option ClassId)
    (statics methods : List (FunDecl Occurrence)) :
    st.store.Retains (st.declareClass name s statics methods).2.store := by
  have hbegin : st.store.Retains (st.store.define st.environment name .nil) := .of_eq rfl rfl
  have hmake := hbegin.trans
    (Store.retains_makeClass (e := st.environment) name s statics methods)
  exact hmake.trans (.of_eq rfl rfl)

/-- Each effect of a step keeps the classes and what instances are instances of. -/
theorem Effect.retains {c : Control} {τ : Store} (h : st.Effect c τ) : st.store.Retains τ := by
  cases h with
  | «class» | subclass => exact retains_declareClass _ _ _ _
  | setField i name v => exact Store.retains_setField i name v
  | @realize _ p _ => cases p <;> exact .of_eq rfl rfl
  | call => exact retains_enterFunction _ _ _
  | addInstance cls => exact Store.retains_addInstance cls
  | copy cls fn v => exact (Store.retains_addInstance cls).trans (.of_eq rfl rfl)
  | construct cls fn copy v arguments =>
    have hcopy : st.store.Retains ((st.addInstance cls).2.copyFor fn v).2.store :=
      (Store.retains_addInstance cls).trans (.of_eq rfl rfl)
    exact hcopy.trans (retains_enterFunction _ _ _)
  | same | assign | var | nilVar | newVar | block | function => exact .of_eq rfl rfl

end State

namespace Config

variable {setup : Setup} {c d : Config} {n : Nat} {t : Transcript} {e : EnvId}

/-- A step leads from genuine code to genuine code. -/
theorem Genuine.next (h : c.Genuine) {event : Option Event} (hnext : c.step setup = .next d event) :
    d.Genuine := by
  have hcontrol : (c.step setup).Genuine := by
    obtain ⟨hcontrol, hfunctions⟩ := h
    obtain ⟨control, st⟩ := c
    cases control with
    | evaluate e k => exact State.genuine_evaluate hcontrol.1 hcontrol.2
    | execute s k => exact State.genuine_execute hcontrol.1 hcontrol.2
    | deliver v k => exact State.genuine_deliver hfunctions v hcontrol
    | complete x k => exact State.genuine_complete x hcontrol
  have hfunctions : (c.step setup).state.store.Genuine :=
    functions_step (P := fun fn => Stmt.GenuineFunction fn.decl)
      (fun fn fn₀ hagrees h₀ => hagrees.1 ▸ h₀) h.functions fun _ => h.control.declares
  rw [hnext] at hcontrol hfunctions
  exact ⟨hcontrol, hfunctions⟩

theorem genuine_after (h : c.Genuine) (hd : c.after? setup n = some d) : d.Genuine :=
  invariant_after (P := Config.Genuine) h (fun _ _ _ hbefore _ _ hnext => hbefore.next hnext) hd

/-- What a reserved word stands for in an environment stays the same. -/
theorem binding?_keyword (h : c.Genuine) (hd : c.after? setup n = some d)
    (he : c.state.store.Has e) (k : Keyword) :
    d.state.store.binding? e k.text = c.state.store.binding? e k.text :=
  binding?_after (fun _ _ hb => (genuine_after h hb).control.sets_ne k) hd he

/-- A step keeps the classes and what instances are instances of. -/
theorem retains_step (c : Config) (setup : Setup) : (c.step setup).Retains c.state.store :=
  (effects_step c setup).store.retains

theorem Steps.retains (h : Steps setup c t d) : c.state.store.Retains d.state.store := by
  induction h with
  | refl => exact .refl _
  | @step a b _ _ _ first _ ih =>
    have hfirst := retains_step a setup
    rw [first] at hfirst
    exact Store.Retains.trans hfirst ih

end Config

end Lox
