import Lox.Proofs.Machine.Graft
import Lox.Proofs.Machine.Words

/-!
# The names of the globals

While an expression at the top level is evaluated, statements are executed in calls only, and so in
other environments than the globals. An assignment to a global variable needs its name to be there
already. So the evaluation adds no name to the globals, however deep it goes and however it ends.

## Main definitions

* `Store.SameGlobals`: the globals of two stores have the same names
* `ValueCont.Inner`, `StmtCont.Inner`, `Config.Inner`: statements are executed away from the globals

## Main results

* `Config.inner_step`: one step keeps this and the names of the globals
* `sameGlobals_of_evaluates`: what the evaluation of an expression leaves of the globals
-/

namespace Lox

/-! ## Stores with the same globals -/

namespace Store

variable {σ τ υ : Store} {e : EnvId} {name : String} {v : Value}

/-- The globals of two stores have the same names. -/
structure SameGlobals (σ τ : Store) : Prop where
  /-- The globals are there. -/
  has : τ.Has globals
  /-- They hold the same names. -/
  holds : ∀ name, τ.holds globals name = σ.holds globals name

namespace SameGlobals

theorem refl (h : σ.Has globals) : σ.SameGlobals σ := ⟨h, fun _ => rfl⟩

theorem trans (h : σ.SameGlobals τ) (h' : τ.SameGlobals υ) : σ.SameGlobals υ :=
  ⟨h'.has, fun name => (h'.holds name).trans (h.holds name)⟩

end SameGlobals

theorem Spares.sameGlobals (h : σ.Spares τ []) (hσ : σ.Has globals) : σ.SameGlobals τ where
  has := (h globals "" hσ List.not_mem_nil).1
  holds name := by rw [Store.holds, (h globals name hσ List.not_mem_nil).2, Store.holds]

/-- A variable of another environment, or one that the globals hold already. -/
theorem sameGlobals_define (hσ : σ.Has globals)
    (h : e = globals → σ.holds globals name = true) : σ.SameGlobals (σ.define e name v) := by
  refine ⟨has_define.2 hσ, fun m => ?_⟩
  by_cases he : e = globals
  · subst he
    rw [holds_define hσ]
    by_cases hm : m = name
    · simp [hm, h rfl]
    · simp [hm]
  · simp [Store.holds, binding?, environment?_define, Ne.symm he]

/-- With a variable defined in another environment. -/
theorem SameGlobals.define (h : σ.SameGlobals τ) (he : e ≠ globals) (name : String) (v : Value) :
    σ.SameGlobals (τ.define e name v) :=
  h.trans (sameGlobals_define h.has fun heq => absurd heq he)

/-- With changes that spare every environment there is. -/
theorem SameGlobals.spares (h : σ.SameGlobals τ) (hs : τ.Spares υ []) : σ.SameGlobals υ :=
  h.trans (hs.sameGlobals h.has)

/-- An environment that is made beside the globals is another one. -/
theorem addEnvironment_ne_globals (hσ : σ.Has globals) (p : Option EnvId) :
    (σ.addEnvironment p).1 ≠ globals :=
  (ne_addEnvironment p hσ).symm

end Store

/-! ## Statements in calls -/

mutual

/-- A value is awaited in an environment by what is done in calls, or by the bottom. -/
def ValueCont.Inner (e : EnvId) : ValueCont → Prop
  | .answer => True
  | .assign _ k | .binaryRight _ _ _ k | .binaryDone _ _ _ k | .logicalRight _ _ k
  | .unary _ _ k | .choose _ _ k | .callee _ _ k | .argument _ _ _ _ k | .field _ k
  | .fieldTarget _ _ k | .fieldValue _ _ k => k.Inner e
  | .expression k | .print k | .var _ k | .ifThen _ k | .ifElse _ _ k | .while _ _ k
  | .return k | .inherit _ _ _ _ k => k.Inner e

/-- The end of a statement is awaited in an environment other than the globals. -/
def StmtCont.Inner (e : EnvId) : StmtCont → Prop
  | .program _ => False
  | .seq _ k | .loop _ _ k => k.Inner e
  | .leave outer k => e ≠ Store.globals ∧ k.Inner outer
  | .activation caller _ k => e ≠ Store.globals ∧ k.Inner caller

end

theorem StmtCont.Inner.ne_globals {e : EnvId} : {k : StmtCont} → k.Inner e → e ≠ Store.globals
  | .seq _ k, h => StmtCont.Inner.ne_globals (k := k) h
  | .loop _ _ k, h => StmtCont.Inner.ne_globals (k := k) h
  | .leave .., h => h.1
  | .activation .., h => h.1

/-- What is done next is done in an environment for calls, or for the bottom. -/
def Config.Inner (c : Config) : Prop :=
  match c.control with
  | .evaluate _ k | .deliver _ k => k.Inner c.state.environment
  | .execute _ k | .complete _ k => k.Inner c.state.environment

/-- A step leads to what is done in calls, or for the bottom, and keeps the names of the globals. -/
structure Progress.KeepsGlobals (p : Progress) (σ : Store) : Prop where
  /-- What is done next. -/
  inner : ∀ d event, p = .next d event → d.Inner
  /-- The names of the globals. -/
  same : σ.SameGlobals p.state.store

namespace Progress

variable {st : State} {σ : Store} {k : ValueCont}

theorem keepsGlobals_next {c : Config} {event : Option Event} (h : c.Inner)
    (hσ : σ.SameGlobals c.state.store) : (Progress.next c event).KeepsGlobals σ := by
  refine ⟨fun d event hnext => ?_, hσ⟩
  cases hnext
  exact h

theorem keepsGlobals_abort (hσ : σ.SameGlobals st.store) (a : Abort) :
    (abort st a).KeepsGlobals σ :=
  ⟨fun d event hnext => (by cases hnext), hσ⟩

theorem keepsGlobals_deliverOr (hk : k.Inner st.environment) (hσ : σ.SameGlobals st.store)
    (r : Except Abort Value) : (deliverOr st r k).KeepsGlobals σ := by
  cases r with
  | ok v => exact keepsGlobals_next hk hσ
  | error a => exact keepsGlobals_abort hσ a

theorem keepsGlobals_deliverProperty (hk : k.Inner st.environment) (hσ : σ.SameGlobals st.store)
    (r : Except Abort Store.Property) : (deliverProperty st r k).KeepsGlobals σ := by
  cases r with
  | ok p => exact keepsGlobals_next hk (hσ.spares (Store.spares_realize p))
  | error a => exact keepsGlobals_abort hσ a

end Progress

namespace State

variable {st : State} {setup : Setup} {σ : Store} {k : ValueCont}

/-! ## Calls -/

theorem keepsGlobals_enter (hk : k.Inner st.environment) (hσ : σ.SameGlobals st.store)
    (fn : Function) (arguments : List Value) (result : CallResult) :
    (st.enter setup fn arguments result k).KeepsGlobals σ := by
  unfold enter
  split
  · exact Progress.keepsGlobals_abort hσ _
  · -- the body is executed in a new environment
    refine Progress.keepsGlobals_next
      ⟨Store.addEnvironment_ne_globals hσ.has (some fn.closure), hk⟩ ?_
    exact hσ.spares (spares_enterFunction st fn arguments)

theorem keepsGlobals_call (hk : k.Inner st.environment) (hσ : σ.SameGlobals st.store)
    (callee : Value) (arguments : List Value) (paren : Token) :
    (st.call setup callee arguments paren k).KeepsGlobals σ := by
  have hadd : ∀ c, st.store.Spares (st.addInstance c).2.store [] := fun c => .of_environments rfl _
  have hform := st.callForm_call setup callee arguments paren
  generalize st.call setup callee arguments paren = call at hform ⊢
  cases hform with
  | refused | noFunction | noInitializer => exact Progress.keepsGlobals_abort hσ _
  | clock => exact Progress.keepsGlobals_next hk hσ
  | bare => exact Progress.keepsGlobals_next hk (hσ.spares (hadd _))
  | function => exact keepsGlobals_enter hk hσ _ arguments _
  | @initializer c fn =>
    have hcopy := (hadd c).trans (Store.spares_copyFor (v := .instance (st.addInstance c).1) fn)
    have hinner : k.Inner
        ((st.addInstance c).2.copyFor fn (.instance (st.addInstance c).1)).2.environment := hk
    exact keepsGlobals_enter hinner (hσ.spares hcopy) _ arguments _

theorem keepsGlobals_argumentsFrom (hk : k.Inner st.environment) (hσ : σ.SameGlobals st.store)
    (paren : Token) (callee : Value) (done : List Value) (rest : List ExprCode) :
    (st.argumentsFrom setup paren callee done rest k).KeepsGlobals σ := by
  cases rest with
  | nil => exact keepsGlobals_call hk hσ callee done paren
  | cons e rest => exact Progress.keepsGlobals_next hk hσ

/-! ## The kinds of steps -/

theorem keepsGlobals_evaluate (hk : k.Inner st.environment) (hσ : σ.SameGlobals st.store)
    (e : ExprCode) : (st.evaluate setup k e).KeepsGlobals σ := by
  cases e with
  | «variable» | this => exact Progress.keepsGlobals_deliverOr hk hσ _
  | super => exact Progress.keepsGlobals_deliverProperty hk hσ _
  | _ => exact Progress.keepsGlobals_next hk hσ

theorem keepsGlobals_finishClass {k : StmtCont} (hk : k.Inner st.environment)
    (hσ : σ.SameGlobals st.store) (name : Token) (s : Option ClassId)
    (statics methods : List (FunDecl Occurrence)) :
    (st.finishClass name s statics methods k).KeepsGlobals σ := by
  -- the name is set before the class is made and once more afterwards, each time away from globals
  have hbegin := hσ.define hk.ne_globals name.lexeme .nil
  have hmake := hbegin.spares
    (Store.spares_makeClass (e := st.environment) name.lexeme s statics methods)
  exact Progress.keepsGlobals_next hk (hmake.define hk.ne_globals _ _)

theorem keepsGlobals_execute {k : StmtCont} (hk : k.Inner st.environment)
    (hσ : σ.SameGlobals st.store) (s : Code) : (st.execute k s).KeepsGlobals σ := by
  have hne : st.environment ≠ Store.globals := hk.ne_globals
  cases s with
  | var name initializer =>
    have hbegin : st.beginVar name.lexeme = st := by simp [beginVar, hne]
    cases initializer with
    | none =>
      simp only [execute, hbegin]
      exact Progress.keepsGlobals_next hk (hσ.define hne _ _)
    | some value =>
      simp only [execute, hbegin]
      exact Progress.keepsGlobals_next hk hσ
  | block body =>
    refine Progress.keepsGlobals_next
      ⟨Store.addEnvironment_ne_globals hσ.has (some st.environment), hk⟩ ?_
    exact hσ.spares Store.spares_addEnvironment
  | function decl =>
    have hadd : σ.SameGlobals (st.store.addFunction ⟨decl, st.environment, false⟩).2 :=
      hσ.spares (.of_environments rfl _)
    exact Progress.keepsGlobals_next hk (hadd.define hne _ _)
  | «return» keyword value => cases value <;> exact Progress.keepsGlobals_next hk hσ
  | «class» name superclass statics methods =>
    cases superclass with
    | none => exact keepsGlobals_finishClass hk hσ name none statics methods
    | some r => exact Progress.keepsGlobals_next hk hσ
  | _ => exact Progress.keepsGlobals_next hk hσ

/-- The variable that is assigned is one of another environment, or one that the globals hold. -/
def AssignsHeld (st : State) (setup : Setup) : ValueCont → Prop
  | .assign ref _ => ∀ e, st.variableOwner setup ref = .ok e →
      e = Store.globals → st.store.holds Store.globals ref.token.lexeme = true
  | _ => True

theorem keepsGlobals_deliver (hk : k.Inner st.environment) (hσ : σ.SameGlobals st.store)
    (hheld : st.AssignsHeld setup k) (v : Value) : (st.deliver setup v k).KeepsGlobals σ := by
  cases k with
  | answer => exact ⟨fun d event hnext => (by cases hnext), hσ⟩
  | assign ref k =>
    simp only [deliver]
    split
    · next e howner =>
      exact Progress.keepsGlobals_next hk
        (hσ.trans (Store.sameGlobals_define hσ.has (hheld e howner)))
    · exact Progress.keepsGlobals_abort hσ _
  | callee paren arguments k => exact keepsGlobals_argumentsFrom (k := k) hk hσ paren v [] arguments
  | argument paren callee done rest k =>
    exact keepsGlobals_argumentsFrom (k := k) hk hσ paren callee (done ++ [v]) rest
  | binaryDone _ _ _ k | unary _ _ k =>
    have hoperate : k.Inner st.operate.environment := hk
    exact Progress.keepsGlobals_deliverOr hoperate hσ _
  | field name k => exact Progress.keepsGlobals_deliverProperty (k := k) hk hσ _
  | logicalRight | expression | ifThen | «while» =>
    simp only [deliver]
    split <;> exact Progress.keepsGlobals_next hk hσ
  | fieldTarget =>
    simp only [deliver]
    split
    · exact Progress.keepsGlobals_next hk hσ
    · exact Progress.keepsGlobals_abort hσ _
  | fieldValue target name k =>
    exact Progress.keepsGlobals_next hk (hσ.spares (.of_environments rfl _))
  | var name k =>
    exact Progress.keepsGlobals_next hk
      (hσ.define (StmtCont.Inner.ne_globals (k := k) hk) _ _)
  | inherit superclass name statics methods k =>
    cases v with
    | «class» c => exact keepsGlobals_finishClass hk hσ name (some c) statics methods
    | _ => exact Progress.keepsGlobals_abort hσ _
  | binaryRight | choose | print | ifElse | «return» => exact Progress.keepsGlobals_next hk hσ

theorem keepsGlobals_complete {k : StmtCont} (hk : k.Inner st.environment)
    (hσ : σ.SameGlobals st.store) (completion : Completion) :
    (st.complete completion k).KeepsGlobals σ := by
  cases k with
  | program rest => exact hk.elim
  | seq rest k => cases completion <;> cases rest <;> exact Progress.keepsGlobals_next hk hσ
  | leave outer k => exact Progress.keepsGlobals_next hk.2 hσ
  | loop => cases completion <;> exact Progress.keepsGlobals_next hk hσ
  | activation caller result k =>
    have hinner : k.Inner (st.leaveFunction caller).environment := hk.2
    exact Progress.keepsGlobals_deliverOr hinner hσ _

end State

/-! ## Runs -/

/-- The globals are there. -/
theorem World.Sound.has_globals {w : World} (h : w.Sound) : w.store.Has Store.globals := by
  have hlt : Store.globals.index < w.origins.length := (List.getElem?_eq_some_iff.1 h.globals).1
  rwa [h.length] at hlt

/-- The environment of a scope is none of the globals. -/
theorem World.Mirrors.ne_globals {w : World} (hw : w.Sound) {e : EnvId} {scopes : List Scope}
    {opener : Opener} {openers : List Opener} (h : w.Mirrors e scopes (opener :: openers)) :
    e ≠ Store.globals := by
  rintro rfl
  obtain ⟨o, -, -, ho, hfor, -⟩ := h.exists_inside
  obtain rfl : o = .globals := Option.some.inj (ho.symm.trans hw.globals)
  exact hfor

/-- A distance leads to the environment of a scope, and a search to one that holds the name. -/
theorem State.assignsHeld {st : State} {setup : Setup} {K : Site → Prop} {O : List Origin}
    (h : (st.world K O).Sound) (hs : Surveyed setup.locals K) {c : Context} {os : List Opener}
    (hm : (st.world K O).Mirrors st.environment c.scopes os) {k : ValueCont}
    (hk : k.Fits (st.world K O) c os) : st.AssignsHeld setup k := by
  cases k with
  | assign ref k =>
    obtain ⟨⟨value, hsite⟩, -⟩ := hk
    intro e howner he
    unfold variableOwner at howner
    split at howner
    · next d hd =>
      have hlt : d < os.length := hm.length_eq ▸ hs.lt_assign hsite hd
      obtain ⟨a, ha, hscope⟩ := hm.ancestor (hs.names_assign hsite hd).1
      obtain rfl : a = e := Except.ok.inj (ha.symm.trans howner)
      rw [List.drop_eq_getElem_cons hlt] at hscope
      exact absurd he (hscope.ne_globals h)
    · rcases st.store.regular_owner Store.globals ref.token with ⟨a, ha, hholds⟩ | ⟨err, herr⟩
      · obtain rfl : a = e := Except.ok.inj (ha.symm.trans howner)
        rwa [he] at hholds
      · cases herr.symm.trans howner
  | _ => trivial

namespace Config

variable {setup : Setup} {K : Site → Prop} {O : List Origin} {c d : Config} {n : Nat}

/-- One step keeps the names of the globals, and what follows is done in calls or for the bottom. -/
theorem inner_step (h : c.Inner) (hfits : c.Fits K O) (hs : Surveyed setup.locals K) :
    (c.step setup).KeepsGlobals c.state.store := by
  have hsame : c.state.store.SameGlobals c.state.store := .refl hfits.sound.has_globals
  obtain ⟨control, st⟩ := c
  obtain ⟨hsound, hcontrol⟩ := hfits
  cases hcontrol with
  | evaluate => exact State.keepsGlobals_evaluate h hsame _
  | superclass => exact State.keepsGlobals_evaluate h hsame (.variable _)
  | execute => exact State.keepsGlobals_execute h hsame _
  | deliver hm _ hk =>
    exact State.keepsGlobals_deliver h hsame (State.assignsHeld hsound hs hm hk) _
  | complete => exact State.keepsGlobals_complete h hsame _

/-- At every moment of a run in calls or for the bottom the globals have the same names. -/
theorem inner_after (h : c.Inner) (hfits : c.Fits K O) (hs : Surveyed setup.locals K)
    (hd : c.after? setup n = some d) : d.Inner ∧ c.state.store.SameGlobals d.state.store := by
  refine invariant_after (P := fun d => d.Inner ∧ c.state.store.SameGlobals d.state.store)
    ⟨h, .refl hfits.sound.has_globals⟩ (fun m b hb hbefore f event hnext => ?_) hd
  have hkeeps := inner_step hbefore.1 (fits_after hfits hs hb) hs
  rw [hnext] at hkeeps
  exact ⟨hkeeps.inner f event rfl, hbefore.2.trans hkeeps.same⟩

end Config

/-- The evaluation of an expression leaves the names of the globals as they are, whether it comes to
a value or is cut off. -/
theorem sameGlobals_of_evaluates {setup : Setup} {K : Site → Prop} {O : List Origin} {e : ExprCode}
    {st st' : State} {t : Transcript} {r : Except Abort Value}
    (hfits : (Config.mk (.evaluate e .answer) st).Fits K O) (hs : Surveyed setup.locals K)
    (h : Evaluates setup e st t r st') : st.store.SameGlobals st'.store := by
  have hinner : (Config.mk (.evaluate e .answer) st).Inner := trivial
  -- the run above the bottom that waits for the value
  have hrun := h .answer
  cases r with
  | ok v =>
    obtain ⟨n, hn⟩ := Config.Steps.exists_after hrun
    exact (Config.inner_after hinner hfits hs hn).2
  | error a =>
    obtain ⟨last, hsteps, habort⟩ := hrun
    obtain ⟨n, hn⟩ := hsteps.exists_after
    obtain ⟨hlast, hsame⟩ := Config.inner_after hinner hfits hs hn
    have hkeeps := Config.inner_step hlast (Config.fits_after hfits hs hn) hs
    rw [habort] at hkeeps
    exact hsame.trans hkeeps.same

/-! ## Declarations that are cut off -/

section Declarations

variable {setup : Setup} {st st' : State} {t : Transcript} {a : Abort} {name : Token}

/-- Before its initializer a variable of the globals is there. -/
theorem State.holds_beginVar (h : st.store.Has Store.globals) (he : st.environment = Store.globals)
    (x m : String) : (st.beginVar x).store.holds Store.globals m =
      (decide (m = x) || st.store.holds Store.globals m) := by
  unfold beginVar
  split
  · rw [define, defineIn, he, Store.holds_define h]
    simp
  · next hheld =>
    have hx : st.store.holds Store.globals x = true := by simpa [he] using hheld
    by_cases hm : m = x <;> simp [hm, hx]

/-- The declaration of a variable is cut off in its initializer. -/
theorem Executes.exists_initializer {initializer : Option ExprCode}
    (h : Executes setup (.var name initializer) st t (.error a) st') :
    ∃ value, initializer = some value ∧
      Evaluates setup value (st.beginVar name.lexeme) t (.error a) st' := by
  cases initializer with
  | none =>
    have hends : Executes setup (.var name none) st [] (.ok .normal)
        ((st.beginVar name.lexeme).define name.lexeme .nil) := .of_end none fun k => rfl
    cases (h.unique hends).2.1
  | some value =>
    refine ⟨value, rfl, ?_⟩
    -- the initializer comes first
    have hfirst : ∀ {u r last}, Completes setup
        (fun k => ⟨.evaluate value (.var name k), st.beginVar name.lexeme⟩) u r last →
        Executes setup (.var name (some value)) st u r last := fun hvalue =>
      .of_next none (fun k => rfl) hvalue
    rcases evaluates_or_endless setup value (st.beginVar name.lexeme) with
      ⟨u, r, last, hvalue⟩ | hendless
    · cases r with
      | ok v =>
        have hends : Executes setup (.var name (some value)) st (u ++ []) (.ok .normal)
            (last.define name.lexeme v) := hfirst (hvalue.completes_ok (.of_end none fun k => rfl))
        cases (h.unique hends).2.1
      | error b =>
        obtain ⟨rfl, hab, rfl⟩ := h.unique (hfirst (hvalue.completes_error _))
        cases hab
        exact hvalue
    · -- an initializer that goes on for ever has no end
      have hforever : Endless setup (⟨.execute (.var name (some value)) ·, st⟩) :=
        hendless.of_next (fun k => .var name k) none fun k => rfl
      exact absurd hforever h.not_endless

theorem evaluates_variable (setup : Setup) (st : State) (r : Ref Occurrence) :
    Evaluates setup (.variable r) st [] (st.readVariable setup r) st := by
  intro k
  cases hread : st.readVariable setup r with
  | ok v =>
    have hnext : Config.step setup ⟨.evaluate (.variable r) k, st⟩ =
        .next ⟨.deliver v k, st⟩ none := by
      simp only [Config.step, State.evaluate, hread]
      rfl
    exact .step hnext (.refl _)
  | error b =>
    refine ⟨_, .refl _, ?_⟩
    simp only [Config.step, State.evaluate, hread]
    rfl

/-- The declaration of a class is cut off before anything is changed. -/
theorem Executes.state_of_class {superclass : Option (Ref Occurrence)}
    {statics methods : List (FunDecl Occurrence)}
    (h : Executes setup (.class name superclass statics methods) st t (.error a) st') :
    st' = st := by
  cases superclass with
  | none =>
    have hends : Executes setup (.class name none statics methods) st
        [.logged (st.declareClass name.lexeme none statics methods).1] (.ok .normal)
        (st.declareClass name.lexeme none statics methods).2 := .of_end (some _) fun k => rfl
    cases (h.unique hends).2.1
  | some r =>
    have hread := evaluates_variable setup st r
    -- the value of the superclass comes first
    have hfirst : ∀ {u r' last}, Completes setup (fun k =>
        ⟨.evaluate (.variable r) (.inherit r.token name statics methods k), st⟩) u r' last →
        Executes setup (.class name (some r) statics methods) st u r' last := fun hrest =>
      .of_next none (fun k => rfl) hrest
    cases hvalue : st.readVariable setup r with
    | error b =>
      rw [hvalue] at hread
      exact (h.unique (hfirst (hread.completes_error _))).2.2
    | ok v =>
      rw [hvalue] at hread
      cases v with
      | «class» c =>
        have hends := hfirst (hread.completes_ok (.of_end (some _) fun k => rfl))
        cases (h.unique hends).2.1
      | _ => exact (h.unique (hfirst (hread.completes_ok (.of_abort fun k => rfl)))).2.2

end Declarations

end Lox
