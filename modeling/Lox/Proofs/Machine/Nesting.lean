import Lox.Proofs.Machine.Moments

/-!
# Nested calls

The depth of a state counts the calls that the continuation still returns from. So a program
ends as it started, among the globals and in no call.

## Main definitions

* `ValueCont.calls`, `StmtCont.calls`: the calls that a continuation returns from
* `Config.Nested`: the depth is their number

## Main results

* `Config.nested_step`: every step keeps the depth right
* `Config.state_of_halt`: the state at the end of a program
-/

namespace Lox

mutual

/-- The number of calls that a continuation returns from to the statements of a program. -/
def ValueCont.calls : ValueCont → Option Nat
  | .answer => none
  | .assign _ k | .binaryRight _ _ _ k | .binaryDone _ _ _ k | .logicalRight _ _ k
  | .unary _ _ k | .choose _ _ k | .callee _ _ k | .argument _ _ _ _ k | .field _ k
  | .fieldTarget _ _ k | .fieldValue _ _ k => k.calls
  | .expression k | .print k | .var _ k | .ifThen _ k | .ifElse _ _ k | .while _ _ k
  | .return k | .inherit _ _ _ _ k => k.calls

/-- The number of calls that a continuation returns from to the statements of a program. -/
def StmtCont.calls : StmtCont → Option Nat
  | .program _ => some 0
  | .seq _ k | .leave _ k | .loop _ _ k => k.calls
  | .activation _ _ k => k.calls.map (· + 1)

end

/-- The number of calls in which something is done in a program. -/
def Control.calls : Control → Option Nat
  | .evaluate _ k | .deliver _ k => k.calls
  | .execute _ k | .complete _ k => k.calls

/-- The depth is the number of calls in which something is done. -/
def Config.Nested (c : Config) : Prop := c.control.calls = some c.state.depth

/-- What a step leads to has the right depth, unless the run is cut off. -/
def Progress.Nested : Progress → Prop
  | .next c _ => c.Nested
  | .halt h _ => ∃ a, h = .aborted a

namespace Progress

variable {st : State} {k : ValueCont}

theorem nested_abort (st : State) (a : Abort) : (abort st a).Nested := ⟨a, rfl⟩

theorem nested_deliverOr (h : k.calls = some st.depth) (r : Except Abort Value) :
    (deliverOr st r k).Nested := by
  cases r with
  | ok => exact h
  | error => exact nested_abort _ _

theorem nested_deliverProperty (h : k.calls = some st.depth) (r : Except Abort Store.Property) :
    (deliverProperty st r k).Nested := by
  cases r with
  | ok => exact h
  | error => exact nested_abort _ _

end Progress

namespace State

open Progress (nested_abort nested_deliverOr nested_deliverProperty)

variable {st : State} {setup : Setup} {k : ValueCont}

/-! ## Calls -/

theorem nested_enter (h : k.calls = some st.depth) (fn : Function) (arguments : List Value)
    (result : CallResult) : (st.enter setup fn arguments result k).Nested := by
  unfold enter
  split
  · exact nested_abort _ _
  · exact congrArg (Option.map (· + 1)) h

theorem nested_call (h : k.calls = some st.depth) (callee : Value) (arguments : List Value)
    (paren : Token) : (st.call setup callee arguments paren k).Nested := by
  have hform := st.callForm_call setup callee arguments paren
  generalize st.call setup callee arguments paren = call at hform ⊢
  cases hform with
  | refused | noFunction | noInitializer => exact nested_abort _ _
  | clock | bare => exact h
  | function => exact nested_enter h _ _ _
  | @initializer c fn => exact @nested_enter ((st.addInstance c).2.copyFor fn _).2 _ _ h _ _ _

theorem nested_argumentsFrom (h : k.calls = some st.depth) (paren : Token) (callee : Value)
    (done : List Value) (rest : List ExprCode) :
    (st.argumentsFrom setup paren callee done rest k).Nested := by
  cases rest with
  | nil => exact nested_call h callee done paren
  | cons => exact h

/-! ## The four kinds of steps -/

theorem nested_evaluate (h : k.calls = some st.depth) (e : ExprCode) :
    (st.evaluate setup k e).Nested := by
  cases e with
  | «variable» | this => exact nested_deliverOr h _
  | super => exact nested_deliverProperty h _
  | _ => exact h

theorem nested_execute {k : StmtCont} (h : k.calls = some st.depth) (s : Code) :
    (st.execute k s).Nested := by
  have hvar : ∀ name, (st.beginVar name).depth = st.depth := by
    intro name
    unfold beginVar
    split <;> rfl
  cases s with
  | var name initializer => cases initializer <;> exact h.trans (congrArg some (hvar _).symm)
  | «return» t value => cases value <;> exact h
  | «class» name superclass => cases superclass <;> exact h
  | _ => exact h

theorem nested_deliver (h : k.calls = some st.depth) (v : Value) :
    (st.deliver setup v k).Nested := by
  cases k with
  | answer => cases h
  | assign | fieldTarget =>
    simp only [deliver]
    split
    · exact h
    · exact nested_abort _ _
  | binaryDone _ _ _ k | unary _ _ k =>
    have hoperate : k.calls = some st.operate.depth := h
    exact nested_deliverOr hoperate _
  | callee paren arguments k => exact nested_argumentsFrom (k := k) h _ _ _ _
  | argument paren callee done rest k => exact nested_argumentsFrom (k := k) h _ _ _ _
  | field name k => exact nested_deliverProperty (k := k) h _
  | inherit =>
    cases v with
    | «class» => exact h
    | _ => exact nested_abort _ _
  | logicalRight | expression | ifThen | «while» =>
    simp only [deliver]
    split <;> exact h
  | binaryRight | choose | fieldValue | print | var | ifElse | «return» => exact h

theorem nested_complete {k : StmtCont} (h : k.calls = some st.depth) (hk : k ≠ .program [])
    (c : Completion) : (st.complete c k).Nested := by
  cases k with
  | program rest =>
    cases rest with
    | nil => exact absurd rfl hk
    | cons => exact h
  | seq rest k => cases c <;> cases rest <;> exact h
  | leave => exact h
  | loop => cases c <;> exact h
  | activation caller result k =>
    obtain ⟨n, hn, hdepth⟩ := Option.map_eq_some_iff.1 (h : k.calls.map (· + 1) = some st.depth)
    have hleft : k.calls = some (st.leaveFunction caller).depth := by
      show k.calls = some (st.depth - 1)
      rw [← hdepth, Nat.add_sub_cancel, hn]
    exact nested_deliverOr hleft _

end State

namespace Config

variable {setup : Setup} {c d : Config} {n : Nat} {recent : Transcript}

/-- Every step keeps the depth right, unless it is the end of a program. -/
theorem nested_step (h : c.Nested) (setup : Setup) :
    (c.step setup).Nested ∨ ∃ completion, c.control = .complete completion (.program []) := by
  obtain ⟨control, st⟩ := c
  cases control with
  | evaluate e k => exact .inl (State.nested_evaluate h e)
  | execute s k => exact .inl (State.nested_execute h s)
  | deliver v k => exact .inl (State.nested_deliver h v)
  | complete completion k =>
    by_cases hk : k = .program []
    · exact .inr ⟨completion, by rw [hk]⟩
    · exact .inl (State.nested_complete h hk completion)

theorem nested_after (h : c.Nested) (hd : c.after? setup n = some d) : d.Nested := by
  induction n generalizing c with
  | zero =>
    cases hd
    exact h
  | succ n ih =>
    obtain ⟨c', event, hstep, hd⟩ := exists_next_of_after? hd
    rcases nested_step h setup with hnext | ⟨completion, hcontrol⟩
    · rw [hstep] at hnext
      exact ih hnext hd
    · obtain ⟨control, st⟩ := c
      obtain rfl : control = _ := hcontrol
      cases hstep

/-- A program that is not cut off ends among the globals and in no call. -/
theorem state_of_halt {K : Site → Prop} {O : List Origin} (h : c.Fits K O) (hc : c.Nested)
    (hs : Surveyed setup.locals K) {halt : Halt}
    (hend : (runFrom setup n c recent).halt = some halt) (hhalt : ∀ a, halt ≠ .aborted a) :
    halt = .finished ∧ (runFrom setup n c recent).state.environment = Store.globals ∧
      (runFrom setup n c recent).state.depth = 0 := by
  obtain ⟨m, d, t, -, hd, -, hrun⟩ := exists_moment setup n c recent
  rcases hrun with hrun | ⟨halt', st, hstep, hrun⟩
  · rw [hrun] at hend
    cases hend
  · rw [hrun] at hend ⊢
    cases hend
    have hfits := (fits_after h hs hd).control
    have hnested := nested_after hc hd
    -- the last step is one that cuts the run off, or it is taken at the end of the program
    rcases nested_step hnested setup with hnext | ⟨completion, hcontrol⟩
    · rw [hstep] at hnext
      obtain ⟨a, rfl⟩ := hnext
      exact absurd rfl (hhalt a)
    · obtain ⟨control, st'⟩ := d
      obtain rfl : control = _ := hcontrol
      cases hstep
      refine ⟨rfl, ?_, (Option.some.inj hnested).symm⟩
      cases hfits with
      | complete hm _ hk =>
        obtain ⟨rfl, -⟩ := hk
        exact hm.eq_globals

end Config

end Lox
