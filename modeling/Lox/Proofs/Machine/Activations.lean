import Lox.Proofs.Machine.Moments
import Lox.Proofs.Store.Evolution

/-!
# Calls that have not ended

The calls that have begun and not ended are on the continuation, the innermost first. A step leaves
them as they are, or begins one more, or ends the innermost one; it begins one only where the last
argument of a call expression is known, and it ends one by handing a value to what waits for the
value of that expression.

## Main definitions

* `Activation`: a call that has not ended
* `Control.activations`: the calls in which something is done
* `State.Called`: the functions that calls execute, and what the calls yield
* `Config.Turn`: what a step does to the calls
* `Config.Ends`: a call ends with a value
* `Config.Unwinds`: a value is handed on to the end of the innermost call

## Main results

* `State.callStep_call`: what a call leads to
* `Config.turn_step`: the calls after a step
* `Config.open_or_ended`: a call is open until it has ended
* `Config.exists_begin`: a call that is open has begun
* `Config.unwinds`: a return leads to the end of the innermost call, and nothing is done before
-/

namespace Lox

/-- A call that has not ended. -/
structure Activation where
  /-- The environment of the caller. -/
  caller : EnvId
  /-- What the call yields. -/
  result : CallResult
  /-- What is done with the value of the call. -/
  rest : ValueCont

/-- What is done when the body of the function has ended. -/
def Activation.cont (a : Activation) : StmtCont := .activation a.caller a.result a.rest

mutual

/-- The calls in which a value is waited for, the innermost first. -/
def ValueCont.activations : ValueCont → List Activation
  | .answer => []
  | .assign _ k | .binaryRight _ _ _ k | .binaryDone _ _ _ k | .logicalRight _ _ k
  | .unary _ _ k | .choose _ _ k | .callee _ _ k | .argument _ _ _ _ k | .field _ k
  | .fieldTarget _ _ k | .fieldValue _ _ k => k.activations
  | .expression k | .print k | .var _ k | .ifThen _ k | .ifElse _ _ k | .while _ _ k
  | .return k | .inherit _ _ _ _ k => k.activations

/-- The calls in which the end of a statement is waited for, the innermost first. -/
def StmtCont.activations : StmtCont → List Activation
  | .program _ => []
  | .seq _ k | .leave _ k | .loop _ _ k => k.activations
  | .activation caller result k => ⟨caller, result, k⟩ :: k.activations

end

/-- The calls in which something is done, the innermost first. -/
def Control.activations : Control → List Activation
  | .evaluate _ k | .deliver _ k => k.activations
  | .execute _ k | .complete _ k => k.activations

/-- What waits for the value of the call that is made next. -/
def Control.made? : Control → Option ValueCont
  | .deliver _ (.callee _ [] k) | .deliver _ (.argument _ _ _ [] k) => some k
  | _ => none

theorem Control.activations_made {c : Control} {k : ValueCont} (h : c.made? = some k) :
    k.activations = c.activations := by
  unfold made? at h
  split at h
  · cases h
    rfl
  · cases h
    rfl
  · cases h

/-! ## What a call leads to -/

namespace State

/-- The functions that calls execute: a function of the store, or a copy of the initializer of a
class, for a new instance. -/
inductive Called (σ : Store) : Function → CallResult → Prop where
  | function {f : FunId} {fn : Function} (h : σ.function? f = some fn) :
      Called σ fn (if fn.isInitializer then .receiver fn.closure else .returned)
  | initializer {c : ClassId} {f : FunId} {fn : Function} {e : EnvId} {i : InstanceId}
      (hfound : σ.findMethod? c "init" = some f) (h : σ.function? f = some fn) :
      Called σ { fn with closure := e } (.constructed i)

/-- What a call leads to: it is cut off, it has a value at once, or the body of a function comes
next. -/
inductive CallStep (st : State) (arguments : List Value) (k : ValueCont) : Progress → Prop where
  | aborts (a : Abort) (st' : State) : CallStep st arguments k (.halt (.aborted a) st')
  | yields {v : Value} {st' : State} (hst : st.store.Spares st'.store []) :
      CallStep st arguments k (.next ⟨.deliver v k, st'⟩ none)
  | begins {fn : Function} {result : CallResult} {st' : State} (hcalled : Called st.store fn result)
      (hst : st.store.Spares st'.store [])
      (hthis : ∀ i, result = .constructed i →
        st'.store.binding? fn.closure "this" = some (.instance i)) :
      CallStep st arguments k (.next ⟨.complete .normal
        (.seq fn.decl.body (.activation st.environment result k)), st'.enterFunction fn arguments⟩
        none)

variable {st st' : State} {setup : Setup} {arguments : List Value} {k : ValueCont} {fn : Function}
  {result : CallResult}

theorem callStep_enter (hcalled : Called st.store fn result) (hst : st.store.Spares st'.store [])
    (he : st'.environment = st.environment)
    (hthis : ∀ i, result = .constructed i →
      st'.store.binding? fn.closure "this" = some (.instance i)) :
    st.CallStep arguments k (st'.enter setup fn arguments result k) := by
  unfold enter
  split
  · exact .aborts _ _
  · have hbegins : st.CallStep arguments k _ := .begins hcalled hst hthis
    rw [← he] at hbegins
    exact hbegins

theorem callStep_call (callee : Value) (paren : Token) :
    st.CallStep arguments k (st.call setup callee arguments paren k) := by
  have hform := st.callForm_call setup callee arguments paren
  generalize st.call setup callee arguments paren = call at hform ⊢
  cases hform with
  | refused | noFunction | noInitializer => exact .aborts _ _
  | clock | bare => exact .yields (.of_environments rfl _)
  | function hf =>
    refine callStep_enter (.function hf) (.of_environments rfl _) rfl fun i hi => ?_
    split at hi <;> cases hi
  | @initializer c fn hinit =>
    have hadd : st.store.Spares (st.addInstance c).2.store [] := .of_environments rfl _
    have hcopy := hadd.trans (Store.spares_copyFor (v := .instance (st.addInstance c).1) fn)
    obtain ⟨f, hfound, hf⟩ := exists_of_initializer hinit
    refine callStep_enter (.initializer hfound hf) hcopy rfl fun i hi => ?_
    cases hi
    -- the copy was made for the new instance
    exact (Store.binding?_define (Store.has_addEnvironment_self _)).trans (if_pos ⟨rfl, rfl⟩)

end State

/-! ## What a step does to the calls -/

namespace Config

/-- A call ends with a value, which is handed to what waits for it. -/
structure Ends (c d : Config) (a : Activation) (completion : Completion) (v : Value) : Prop where
  /-- The body of the function has ended. -/
  body : c.control = .complete completion a.cont
  /-- What the call yields. -/
  value : c.state.callValue a.result completion = .ok v
  /-- The caller goes on. -/
  after : d = ⟨.deliver v a.rest, c.state.leaveFunction a.caller⟩

/-- What a step does to the calls. -/
inductive Turn (c d : Config) : Prop where
  | stays (h : d.control.activations = c.control.activations)
  | begins {fn : Function} {arguments : List Value} {a : Activation} {st : State}
      (hmade : c.control.made? = some a.rest) (hcaller : a.caller = c.state.environment)
      (hcalled : State.Called c.state.store fn a.result)
      (hst : c.state.store.Spares st.store [])
      (hthis : ∀ i, a.result = .constructed i →
        st.store.binding? fn.closure "this" = some (.instance i))
      (hd : d = ⟨.complete .normal (.seq fn.decl.body a.cont), st.enterFunction fn arguments⟩)
  | ends {completion : Completion} {a : Activation} {v : Value} (h : c.Ends d a completion v)

end Config

/-- What a step that leads somewhere does to the calls. -/
def Progress.Turns (p : Progress) (c : Config) : Prop :=
  match p with
  | .next d _ => c.Turn d
  | .halt .. => True

namespace State

variable {st : State} {setup : Setup} {c : Config} {k : ValueCont}

theorem turns_deliverOr (h : k.activations = c.control.activations) (r : Except Abort Value) :
    (Progress.deliverOr st r k).Turns c := by
  cases r with
  | error => trivial
  | ok => exact .stays h

theorem turns_deliverProperty (h : k.activations = c.control.activations)
    (r : Except Abort Store.Property) : (Progress.deliverProperty st r k).Turns c := by
  cases r with
  | error => trivial
  | ok => exact .stays h

theorem turns_evaluate (e : ExprCode) :
    (st.evaluate setup k e).Turns ⟨.evaluate e k, st⟩ := by
  cases e with
  | «variable» | this => exact turns_deliverOr rfl _
  | super => exact turns_deliverProperty rfl _
  | _ => exact .stays rfl

theorem turns_execute (s : Code) (k : StmtCont) : (st.execute k s).Turns ⟨.execute s k, st⟩ := by
  cases s with
  | var name initializer => cases initializer <;> exact .stays rfl
  | «return» keyword value => cases value <;> exact .stays rfl
  | «class» name superclass => cases superclass <;> exact .stays rfl
  | _ => exact .stays rfl

/-- The last argument of a call is known. -/
theorem turns_call (hmade : c.control.made? = some k) (callee : Value) (arguments : List Value)
    (paren : Token) : (c.state.call setup callee arguments paren k).Turns c := by
  have hcall := @callStep_call c.state setup arguments k callee paren
  generalize c.state.call setup callee arguments paren k = p at hcall
  cases hcall with
  | aborts => trivial
  | yields => exact .stays (Control.activations_made hmade)
  | @begins fn result st' hcalled hst hthis =>
    exact .begins (a := ⟨c.state.environment, result, k⟩) hmade rfl hcalled hst hthis rfl

theorem turns_deliver (v : Value) (k : ValueCont) :
    (st.deliver setup v k).Turns ⟨.deliver v k, st⟩ := by
  cases k with
  | callee paren arguments k =>
    cases arguments with
    | nil => exact turns_call (c := ⟨.deliver v (.callee paren [] k), st⟩) rfl v [] paren
    | cons => exact .stays rfl
  | argument paren callee done rest k =>
    cases rest with
    | nil =>
      exact turns_call (c := ⟨.deliver v (.argument paren callee done [] k), st⟩) rfl callee
        (done ++ [v]) paren
    | cons => exact .stays rfl
  | answer => trivial
  | binaryDone op t left k => exact turns_deliverOr (k := k) rfl _
  | unary op t k => exact turns_deliverOr (k := k) rfl _
  | field name k => exact turns_deliverProperty (k := k) rfl _
  | assign | fieldTarget =>
    simp only [deliver]
    split
    · exact .stays rfl
    · trivial
  | logicalRight | expression | ifThen | «while» =>
    simp only [deliver]
    split <;> exact .stays rfl
  | inherit =>
    cases v with
    | «class» => exact .stays rfl
    | _ => trivial
  | binaryRight | choose | fieldValue | print | var | ifElse | «return» => exact .stays rfl

theorem turns_complete (completion : Completion) (k : StmtCont) :
    (st.complete completion k).Turns ⟨.complete completion k, st⟩ := by
  cases k with
  | program rest =>
    cases rest with
    | nil => trivial
    | cons => exact .stays rfl
  | seq rest k => cases completion <;> cases rest <;> exact .stays rfl
  | leave => exact .stays rfl
  | loop => cases completion <;> exact .stays rfl
  | activation caller result k =>
    simp only [complete]
    cases hv : st.callValue result completion with
    | error => trivial
    | ok v => exact .ends (a := ⟨caller, result, k⟩) ⟨rfl, hv, rfl⟩

end State

namespace Config

variable {setup : Setup} {c d e f g : Config} {m n : Nat} {a : Activation}
  {inner outer : List Activation} {completion : Completion} {v : Value}

theorem Ends.activations (h : c.Ends d a completion v) :
    c.control.activations = a :: d.control.activations := by
  rw [h.body, h.after]
  rfl

/-- The calls after a step. -/
theorem turn_step {event : Option Event} (h : c.step setup = .next d event) : c.Turn d := by
  have hturns : (c.step setup).Turns c := by
    obtain ⟨control, st⟩ := c
    cases control with
    | evaluate e k => exact State.turns_evaluate e
    | execute s k => exact State.turns_execute s k
    | deliver v k => exact State.turns_deliver v k
    | complete completion k => exact State.turns_complete completion k
  rwa [h] at hturns

/-! ## Calls of a run -/

/-- A call that is open at a moment is open later on unless it has ended in between, as the
innermost one. -/
theorem open_or_ended (hd : d.control.activations = inner ++ a :: outer)
    (he : d.after? setup n = some e) :
    (∃ inner, e.control.activations = inner ++ a :: outer) ∨
      ∃ j f g completion v, j < n ∧ d.after? setup j = some f ∧ d.after? setup (j + 1) = some g ∧
        f.control.activations = a :: outer ∧ f.Ends g a completion v := by
  induction n generalizing d inner with
  | zero =>
    cases he
    exact .inl ⟨inner, hd⟩
  | succ n ih =>
    obtain ⟨d', event, hnext, he⟩ := exists_next_of_after? he
    -- it is enough that the call is open after the first step, under whatever calls
    have hlater : ∀ inner', d'.control.activations = inner' ++ a :: outer →
        (∃ inner, e.control.activations = inner ++ a :: outer) ∨
          ∃ j f g completion v, j < n + 1 ∧ d.after? setup j = some f ∧
            d.after? setup (j + 1) = some g ∧ f.control.activations = a :: outer ∧
            f.Ends g a completion v := by
      intro inner' hd'
      rcases ih hd' he with hopen | ⟨j, f, g, completion, v, hj, hf, hg, hactivations, hends⟩
      · exact .inl hopen
      · refine .inr ⟨j + 1, f, g, completion, v, Nat.succ_lt_succ hj, ?_, ?_, hactivations, hends⟩
        · rw [after?_next hnext, hf]
        · rw [after?_next hnext, hg]
    cases turn_step hnext with
    | stays h => exact hlater inner (h.trans hd)
    | @begins fn arguments b st hmade _ _ _ _ hd' =>
      refine hlater (b :: inner) ?_
      have hbegun : d'.control.activations = b :: b.rest.activations := by rw [hd']; rfl
      rw [hbegun, Control.activations_made hmade, hd]
      rfl
    | @ends completion b v h =>
      have hstack : b :: d'.control.activations = inner ++ a :: outer := h.activations ▸ hd
      cases inner with
      | nil =>
        -- the call that ends is the one in question
        obtain ⟨rfl, -⟩ := List.cons.inj hstack
        exact .inr ⟨0, d, d', completion, v, Nat.succ_pos n, rfl, after?_next hnext 0, hd, h⟩
      | cons x inner => exact hlater inner (List.cons.inj hstack).2

/-- A call that is open at a moment of a run has begun in the run, and has been open since. -/
theorem exists_begin (hc : c.control.activations = []) (he : c.after? setup n = some e)
    (hopen : e.control.activations = inner ++ a :: outer) :
    ∃ m b d event, m < n ∧ c.after? setup m = some b ∧ b.step setup = .next d event ∧
      b.control.activations = outer ∧ d.control.activations = a :: outer ∧
      ∀ i, m < i → i ≤ n → ∀ f, c.after? setup i = some f →
        ∃ inner, f.control.activations = inner ++ a :: outer := by
  induction n generalizing e inner with
  | zero =>
    cases he
    rw [hc] at hopen
    cases inner <;> cases hopen
  | succ n ih =>
    obtain ⟨d, event, hd, hlast⟩ := exists_last_of_after? he
    -- a call that was open before the last step has begun earlier
    have hearlier : ∀ inner', d.control.activations = inner' ++ a :: outer →
        ∃ m b d event, m < n + 1 ∧ c.after? setup m = some b ∧ b.step setup = .next d event ∧
          b.control.activations = outer ∧ d.control.activations = a :: outer ∧
          ∀ i, m < i → i ≤ n + 1 → ∀ f, c.after? setup i = some f →
            ∃ inner, f.control.activations = inner ++ a :: outer := by
      intro inner' hd'
      obtain ⟨m, b, d', event', hm, hb, hnext, hbefore, hbegun, hbetween⟩ := ih hd hd'
      refine ⟨m, b, d', event', Nat.lt_succ_of_lt hm, hb, hnext, hbefore, hbegun, ?_⟩
      intro i hmi hi f hf
      rcases Nat.lt_or_eq_of_le hi with hlt | rfl
      · exact hbetween i hmi (Nat.le_of_lt_succ hlt) f hf
      · obtain rfl := Option.some.inj (hf.symm.trans he)
        exact ⟨inner, hopen⟩
    cases turn_step hlast with
    | stays h => exact hearlier inner (h ▸ hopen)
    | @begins fn arguments b st hmade _ _ _ _ he' =>
      have hbegun : e.control.activations = b :: d.control.activations := by
        rw [he', ← Control.activations_made hmade]
        rfl
      have hstack : b :: d.control.activations = inner ++ a :: outer := hbegun ▸ hopen
      cases inner with
      | nil =>
        -- this is the step that begins the call
        obtain ⟨rfl, hbefore⟩ := List.cons.inj hstack
        refine ⟨n, d, e, event, Nat.lt_succ_self n, hd, hlast, hbefore, hopen, ?_⟩
        intro i hni hi f hf
        obtain rfl : i = n + 1 := Nat.le_antisymm hi hni
        obtain rfl := Option.some.inj (hf.symm.trans he)
        exact ⟨[], hopen⟩
      | cons x inner => exact hearlier inner (List.cons.inj hstack).2
    | @ends completion b v h =>
      -- the call that ends was above it
      refine hearlier (b :: inner) ?_
      rw [h.activations, hopen]
      rfl

/-! ## Returns -/

/-- A value that is returned is handed on to the end of the innermost call, with nothing else in
between: no statement is executed, no expression is evaluated, and no object changes. -/
def Unwinds (setup : Setup) (c : Config) (v : Value) (a : Activation) (outer : List Activation) :
    Prop :=
  ∃ j f, c.after? setup j = some f ∧ f.control = .complete (.returned v) a.cont ∧
    f.control.activations = a :: outer ∧ f.state.store = c.state.store ∧
    ∀ i ≤ j, ∃ d k, c.after? setup i = some d ∧ d.control = .complete (.returned v) k

/-- One step more. -/
theorem Unwinds.cons {k : StmtCont} {event : Option Event}
    (hc : c.control = .complete (.returned v) k) (hnext : c.step setup = .next d event)
    (hstore : d.state.store = c.state.store) (h : Unwinds setup d v a outer) :
    Unwinds setup c v a outer := by
  obtain ⟨j, f, hf, hcontrol, hactivations, hsame, hbetween⟩ := h
  refine ⟨j + 1, f, by rw [after?_next hnext, hf], hcontrol, hactivations, hsame.trans hstore, ?_⟩
  intro i hi
  cases i with
  | zero => exact ⟨c, k, rfl, hc⟩
  | succ i =>
    obtain ⟨e, k', he, hk'⟩ := hbetween i (Nat.le_of_succ_le_succ hi)
    exact ⟨e, k', by rw [after?_next hnext, he], hk'⟩

/-- A return leads past the statements, blocks and loops of the body to the end of the innermost
call. -/
theorem unwinds (setup : Setup) (v : Value) :
    (k : StmtCont) → (st : State) → k.activations = a :: outer →
      Unwinds setup ⟨.complete (.returned v) k, st⟩ v a outer
  -- outside of calls there is nothing to return from
  | .program _, _, h => by cases h
  | .seq rest k, st, h => by
    have hnext : Config.step setup ⟨.complete (.returned v) (.seq rest k), st⟩ =
        .next ⟨.complete (.returned v) k, st⟩ none := by
      cases rest <;> rfl
    exact Unwinds.cons rfl hnext rfl (unwinds setup v k st h)
  | .leave outer k, st, h =>
    Unwinds.cons (d := ⟨.complete (.returned v) k, st.leaveFor outer⟩) rfl rfl rfl
      (unwinds setup v k (st.leaveFor outer) h)
  | .loop _ _ k, st, h =>
    Unwinds.cons (d := ⟨.complete (.returned v) k, st⟩) rfl rfl rfl (unwinds setup v k st h)
  | .activation caller result k, st, h => by
    obtain ⟨rfl, -⟩ := List.cons.inj h
    refine ⟨0, _, rfl, rfl, h, rfl, fun i hi => ?_⟩
    obtain rfl := Nat.le_zero.1 hi
    exact ⟨_, _, rfl, rfl⟩

end Config

end Lox
