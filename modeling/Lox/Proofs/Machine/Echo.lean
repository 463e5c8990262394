import Lox.Proofs.Machine.Growth

/-!
# Runs with and without echo

Whether the values of expression statements are echoed changes nothing that a run does. With and
without echo it goes through the same configurations; with echo, a value is shown at each of them
at which the expression of a statement is completed, and nothing else is shown that is not shown
without.

## Main definitions

* `Setup.withEcho`: a setup that echoes, or that does not
* `Control.completed?`: the value of the expression statement that is completed next
* `Config.moments`: the configurations that a run goes through
* `Config.seen`, `Config.echoed`: what is seen of their steps, without echo and with it

## Main results

* `Config.step_echo`: a step with echo and the same step without
* `Config.run_echo`: a run with echo and the same run without
-/

namespace Lox

/-- Whether an event is the echo of a value. -/
def Event.isEcho : Event → Bool
  | .echoed _ => true
  | _ => false

/-- The setup that echoes the values of expression statements, or that does not. -/
def Setup.withEcho (setup : Setup) (interactive : Bool) : Setup := { setup with interactive }

/-- The value of the expression statement that is completed next. -/
def Control.completed? : Control → Option Value
  | .deliver v (.expression _) => some v
  | _ => none

/-- A step with another event. -/
def Progress.withEvent (p : Progress) (event : Option Event) : Progress :=
  match p with
  | .next c _ => .next c event
  | .halt h st => .halt h st

/-! ## What steps show -/

section Shown

variable {st : State} {setup : Setup} {k : ValueCont} {arguments : List Value} {paren : Token}

theorem Progress.event?_deliverOr (r : Except Abort Value) :
    (deliverOr st r k).event? = none := by
  cases r <;> rfl

theorem Progress.event?_deliverProperty (r : Except Abort Store.Property) :
    (deliverProperty st r k).event? = none := by
  cases r <;> rfl

namespace State

open Progress (event?_deliverOr event?_deliverProperty)

theorem event?_enter (fn : Function) (result : CallResult) :
    (st.enter setup fn arguments result k).event? = none := by
  unfold enter
  split <;> rfl

/-- A call shows nothing itself. -/
theorem event?_call (callee : Value) :
    (st.call setup callee arguments paren k).event? = none := by
  have hform := st.callForm_call setup callee arguments paren
  generalize st.call setup callee arguments paren = call at hform ⊢
  cases hform with
  | function | initializer => exact event?_enter _ _
  | _ => rfl

theorem event?_argumentsFrom (callee : Value) (done : List Value) (rest : List ExprCode) :
    (st.argumentsFrom setup paren callee done rest k).event? = none := by
  cases rest with
  | nil => exact event?_call _
  | cons => rfl

theorem event?_evaluate (e : ExprCode) : (st.evaluate setup k e).event? = none := by
  cases e with
  | «variable» | this => exact event?_deliverOr _
  | super => exact event?_deliverProperty _
  | _ => rfl

theorem event?_complete (c : Completion) (k : StmtCont) : (st.complete c k).event? = none := by
  cases k with
  | program rest => cases rest <;> rfl
  | seq rest => cases c <;> cases rest <;> rfl
  | leave => rfl
  | loop => cases c <;> rfl
  | activation => exact event?_deliverOr _

/-- Declaring a class is logged, and no other statement shows anything as it starts. -/
theorem isEcho_execute (s : Code) (k : StmtCont) :
    ∀ event ∈ (st.execute k s).event?, event.isEcho = false := by
  intro event h
  cases s with
  | var _ o | «return» _ o => cases o <;> cases h
  | «class» _ o =>
    cases o with
    | none =>
      cases h
      rfl
    | some => cases h
  | _ => cases h

theorem isEcho_deliver (v : Value) (k : ValueCont) :
    ∀ event ∈ (st.deliver (setup.withEcho false) v k).event?, event.isEcho = false := by
  have none_echo : ∀ {o : Option Event}, o = none → ∀ event ∈ o, event.isEcho = false := by
    rintro o rfl event h
    cases h
  cases k with
  | assign =>
    simp only [deliver]
    split <;> exact none_echo rfl
  | binaryDone | unary => exact none_echo (event?_deliverOr _)
  | logicalRight =>
    simp only [deliver]
    split <;> exact none_echo rfl
  | callee | argument => exact none_echo (event?_argumentsFrom _ _ _)
  | field => exact none_echo (event?_deliverProperty _)
  | fieldTarget =>
    simp only [deliver]
    split <;> exact none_echo rfl
  | print =>
    intro event h
    cases h
    rfl
  | ifThen | «while» =>
    simp only [deliver]
    split <;> exact none_echo rfl
  | inherit =>
    cases v with
    | «class» =>
      intro event h
      cases h
      rfl
    | _ => exact none_echo rfl
  | _ => exact none_echo rfl

end State

end Shown

namespace Config

variable {setup : Setup} {c : Config}

/-- Without echo no step shows one. -/
theorem isEcho_step (setup : Setup) (c : Config) :
    ∀ event ∈ (c.step (setup.withEcho false)).event?, event.isEcho = false := by
  obtain ⟨control, st⟩ := c
  intro event h
  cases control with
  | evaluate =>
    rw [step, State.event?_evaluate] at h
    cases h
  | execute => exact State.isEcho_execute _ _ event h
  | deliver => exact State.isEcho_deliver _ _ event h
  | complete =>
    rw [step, State.event?_complete] at h
    cases h

/-! ## Steps with echo -/

/-- A step with echo is the one without, and where an expression statement is completed its value
is shown. -/
theorem step_echo (setup : Setup) (c : Config) :
    c.step (setup.withEcho true) =
      match c.control.completed? with
      | some v => (c.step (setup.withEcho false)).withEvent (some (.echoed (c.state.store.text v)))
      | none => c.step (setup.withEcho false) := by
  obtain ⟨control, st⟩ := c
  cases control with
  | evaluate e => cases e <;> rfl
  | execute | complete => rfl
  | deliver v k => cases k <;> rfl

/-- What is seen of a step without echo. -/
def seen (setup : Setup) (c : Config) : Transcript :=
  (c.step (setup.withEcho false)).event?.toList

/-- What is seen of a step with echo: where an expression statement is completed, its value. -/
def echoed (setup : Setup) (c : Config) : Transcript :=
  match c.control.completed? with
  | some v => [.echoed (c.state.store.text v)]
  | none => c.seen setup

/-- When an expression statement is completed the run goes on, and nothing is shown of it without
echo. -/
theorem step_of_completed (setup : Setup) {v : Value} (h : c.control.completed? = some v) :
    ∃ d, c.step (setup.withEcho false) = .next d none := by
  obtain ⟨control, st⟩ := c
  cases control with
  | deliver w k =>
    cases k with
    | expression k => exact ⟨⟨.complete .normal k, st⟩, rfl⟩
    | _ => cases h
  | _ => cases h

/-- The end of an expression statement shows nothing without echo. -/
theorem seen_of_completed {v : Value} (h : c.control.completed? = some v) :
    c.seen setup = [] := by
  obtain ⟨d, hd⟩ := step_of_completed setup h
  rw [seen, hd]
  rfl

theorem completed?_of_halt {h : Halt} {st : State}
    (hs : c.step (setup.withEcho false) = .halt h st) : c.control.completed? = none := by
  cases hc : c.control.completed? with
  | none => rfl
  | some v =>
    obtain ⟨d, hd⟩ := step_of_completed setup hc
    rw [hs] at hd
    cases hd

theorem filter_echoed (setup : Setup) (c : Config) :
    (c.echoed setup).filter (!·.isEcho) = c.seen setup := by
  unfold echoed
  split
  · next h =>
    rw [seen_of_completed h]
    rfl
  · refine List.filter_eq_self.2 fun event h => ?_
    rw [isEcho_step setup c event (by simpa [seen] using h), Bool.not_false]

theorem filter_flatMap_echoed (setup : Setup) (moments : List Config) :
    (moments.flatMap (echoed setup)).filter (!·.isEcho) = moments.flatMap (seen setup) := by
  rw [List.filter_flatMap]
  exact congrArg moments.flatMap (funext (filter_echoed setup))

/-! ## Runs with echo -/

/-- The configurations that at most a number of steps are taken from. -/
def moments (setup : Setup) : Nat → Config → List Config
  | 0, _ => []
  | n + 1, c =>
    c :: match c.step setup with
      | .next d _ => d.moments setup n
      | .halt .. => []

/-- A run shows what its steps show. -/
theorem transcript_run (setup : Setup) (n : Nat) (c : Config) :
    (c.run (setup.withEcho false) n).transcript =
      (c.moments (setup.withEcho false) n).flatMap (seen setup) := by
  have hfrom : ∀ n c recent, (runFrom (setup.withEcho false) n c recent).transcript =
      recent.reverse ++ (c.moments (setup.withEcho false) n).flatMap (seen setup) := by
    intro n
    induction n with
    | zero => simp [runFrom, moments, Run.transcript]
    | succ n ih =>
      intro c recent
      simp only [moments, List.flatMap_cons, seen]
      cases hs : c.step (setup.withEcho false) with
      | next d event =>
        rw [runFrom_next hs, ih, reverse_record, List.append_assoc]
        rfl
      | halt h st =>
        rw [runFrom_halt hs]
        simp [Run.transcript, Progress.event?]
  exact hfrom n c []

/-- A run with echo ends as the one without, and shows in addition the values of the expression
statements that are completed, each where it is. -/
theorem run_echo (setup : Setup) (n : Nat) (c : Config) :
    (c.run (setup.withEcho true) n).halt = (c.run (setup.withEcho false) n).halt ∧
      (c.run (setup.withEcho true) n).state = (c.run (setup.withEcho false) n).state ∧
      (c.run (setup.withEcho true) n).transcript =
        (c.moments (setup.withEcho false) n).flatMap (echoed setup) := by
  have hfrom : ∀ n c recent recent',
      (runFrom (setup.withEcho true) n c recent').halt =
          (runFrom (setup.withEcho false) n c recent).halt ∧
        (runFrom (setup.withEcho true) n c recent').state =
          (runFrom (setup.withEcho false) n c recent).state ∧
        (runFrom (setup.withEcho true) n c recent').transcript =
          recent'.reverse ++ (c.moments (setup.withEcho false) n).flatMap (echoed setup) := by
    intro n
    induction n with
    | zero => simp [runFrom, moments, Run.transcript]
    | succ n ih =>
      intro c recent recent'
      have hstep := step_echo setup c
      cases hs : c.step (setup.withEcho false) with
      | next d event =>
        -- the step with echo leads to the same configuration
        obtain ⟨event', hs', hevent⟩ : ∃ event', c.step (setup.withEcho true) = .next d event' ∧
            event'.toList = c.echoed setup := by
          rw [hstep, hs, echoed]
          cases c.control.completed? with
          | none => exact ⟨event, rfl, by rw [seen, hs]; rfl⟩
          | some v => exact ⟨_, rfl, rfl⟩
        obtain ⟨hhalt, hstate, htranscript⟩ := ih d (record recent event) (record recent' event')
        rw [runFrom_next hs, runFrom_next hs', moments, hs]
        refine ⟨hhalt, hstate, ?_⟩
        rw [htranscript, reverse_record, hevent, List.flatMap_cons, List.append_assoc]
      | halt h st =>
        have hc := completed?_of_halt hs
        have hs' : c.step (setup.withEcho true) = .halt h st := by rw [hstep, hc, hs]
        have hechoed : c.echoed setup = [] := by simp [echoed, seen, hc, hs, Progress.event?]
        rw [runFrom_halt hs, runFrom_halt hs', moments, hs]
        exact ⟨rfl, rfl, by simp [Run.transcript, hechoed]⟩
  exact hfrom n c [] []

end Config

end Lox
