import Lox.Proofs.Machine.Moments

/-!
# What a computation does under any continuation

What is done next never looks at the bottom of the continuation before it gets there. So the run of
an expression or of a statement under its continuation is its run on its own, with the continuation
in place of the bottom.

## Main definitions

* `Ground`, `ValueCont.graft`, `StmtCont.graft`: continuations with another bottom
* `Control.Grounded`: what is done next is handed to the bottom
* `Delivers`, `Completes`, `Endless`: what is done comes to a value or to the end of a statement
  under any continuation, or goes on for ever
* `Evaluates`, `Executes`, `Performs`: so for expressions and statements

## Main results

* `Config.step_graft`: a step above the bottom is the same step above any other
* `Config.Alone.delivers_or_endless`, `Config.Alone.completes_or_endless`: what is done has an end
  under any continuation, or goes on for ever
-/

namespace Lox

/-- What stands at the bottom of continuations. -/
structure Ground where
  /-- In place of the answer of an expression. -/
  value : ValueCont
  /-- In place of the end of a program. -/
  stmt : StmtCont

mutual

/-- A continuation with another bottom. -/
def ValueCont.graft (g : Ground) : ValueCont → ValueCont
  | .answer => g.value
  | .assign name k => .assign name (k.graft g)
  | .binaryRight op token right k => .binaryRight op token right (k.graft g)
  | .binaryDone op token left k => .binaryDone op token left (k.graft g)
  | .logicalRight op right k => .logicalRight op right (k.graft g)
  | .unary op token k => .unary op token (k.graft g)
  | .choose whenTrue whenFalse k => .choose whenTrue whenFalse (k.graft g)
  | .callee paren arguments k => .callee paren arguments (k.graft g)
  | .argument paren callee done rest k => .argument paren callee done rest (k.graft g)
  | .field name k => .field name (k.graft g)
  | .fieldTarget name value k => .fieldTarget name value (k.graft g)
  | .fieldValue target name k => .fieldValue target name (k.graft g)
  | .expression k => .expression (k.graft g)
  | .print k => .print (k.graft g)
  | .var name k => .var name (k.graft g)
  | .ifThen thenBranch k => .ifThen thenBranch (k.graft g)
  | .ifElse thenBranch elseBranch k => .ifElse thenBranch elseBranch (k.graft g)
  | .while condition body k => .while condition body (k.graft g)
  | .return k => .return (k.graft g)
  | .inherit superclass name statics methods k =>
    .inherit superclass name statics methods (k.graft g)

/-- A continuation with another bottom. -/
def StmtCont.graft (g : Ground) : StmtCont → StmtCont
  | .program _ => g.stmt
  | .seq rest k => .seq rest (k.graft g)
  | .leave outer k => .leave outer (k.graft g)
  | .loop condition body k => .loop condition body (k.graft g)
  | .activation caller result k => .activation caller result (k.graft g)

end

/-- What is done next, above another bottom. -/
def Control.graft (g : Ground) : Control → Control
  | .evaluate e k => .evaluate e (k.graft g)
  | .execute s k => .execute s (k.graft g)
  | .deliver v k => .deliver v (k.graft g)
  | .complete c k => .complete c (k.graft g)

/-- A configuration above another bottom. -/
def Config.graft (g : Ground) (c : Config) : Config := ⟨c.control.graft g, c.state⟩

/-- The one step leads to what the other leads to, above another bottom, or both are cut off. -/
inductive Progress.Grafts (g : Ground) : Progress → Progress → Prop where
  | next (c : Config) (event : Option Event) : Grafts g (.next c event) (.next (c.graft g) event)
  | aborts (a : Abort) (st : State) : Grafts g (.halt (.aborted a) st) (.halt (.aborted a) st)

/-- What is done next is handed to the bottom. -/
inductive Control.Grounded : Control → Prop where
  | value (v : Value) : Grounded (.deliver v .answer)
  | stmt (c : Completion) (rest : List Code) : Grounded (.complete c (.program rest))

/-! ## Steps above the bottom -/

section Steps

variable {g : Ground} {st : State} {setup : Setup} {k : ValueCont} {arguments : List Value}

namespace Progress

theorem grafts_deliverOr (r : Except Abort Value) :
    (deliverOr st r k).Grafts g (deliverOr st r (k.graft g)) := by
  cases r with
  | error a => exact .aborts a st
  | ok v => exact .next ⟨.deliver v k, st⟩ none

theorem grafts_deliverProperty (r : Except Abort Store.Property) :
    (deliverProperty st r k).Grafts g (deliverProperty st r (k.graft g)) := by
  cases r with
  | error a => exact .aborts a st
  | ok p => exact .next ⟨.deliver (st.realize p).1 k, (st.realize p).2⟩ none

end Progress

namespace State

theorem grafts_enter (fn : Function) (result : CallResult) :
    (st.enter setup fn arguments result k).Grafts g
      (st.enter setup fn arguments result (k.graft g)) := by
  unfold enter
  split
  · exact .aborts _ _
  · exact .next _ _

theorem grafts_call (callee : Value) (paren : Token) :
    (st.call setup callee arguments paren k).Grafts g
      (st.call setup callee arguments paren (k.graft g)) := by
  -- a call has one form under both continuations
  have hform := st.callForm_call setup callee arguments paren
  generalize st.call setup callee arguments paren = call at hform ⊢
  cases hform with
  | refused | noFunction | noInitializer => exact .aborts _ _
  | clock | bare => exact .next _ _
  | function | initializer => exact grafts_enter _ _

theorem grafts_argumentsFrom (paren : Token) (callee : Value) (done : List Value)
    (rest : List ExprCode) :
    (st.argumentsFrom setup paren callee done rest k).Grafts g
      (st.argumentsFrom setup paren callee done rest (k.graft g)) := by
  cases rest with
  | nil => exact grafts_call callee paren
  | cons => exact .next _ _

theorem grafts_evaluate (e : ExprCode) :
    (st.evaluate setup k e).Grafts g (st.evaluate setup (k.graft g) e) := by
  cases e with
  | «variable» | this => exact Progress.grafts_deliverOr _
  | super => exact Progress.grafts_deliverProperty _
  | _ => exact .next _ _

theorem grafts_execute (s : Code) (k : StmtCont) :
    (st.execute k s).Grafts g (st.execute (k.graft g) s) := by
  cases s with
  | var name initializer => cases initializer <;> exact .next _ _
  | «return» keyword value => cases value <;> exact .next _ _
  | «class» name superclass => cases superclass <;> exact .next _ _
  | _ => exact .next _ _

theorem grafts_deliver (v : Value) (k : ValueCont) (h : ¬ (Control.deliver v k).Grounded) :
    (st.deliver setup v k).Grafts g (st.deliver setup v (k.graft g)) := by
  cases k with
  | answer => exact absurd (.value v) h
  | callee | argument => exact grafts_argumentsFrom _ _ _ _
  | binaryDone | unary => exact Progress.grafts_deliverOr _
  | field => exact Progress.grafts_deliverProperty _
  | logicalRight | expression | ifThen | «while» =>
    simp only [deliver, ValueCont.graft]
    split <;> exact .next _ _
  | assign | fieldTarget =>
    simp only [deliver, ValueCont.graft]
    split
    · exact .next _ _
    · exact .aborts _ _
  | inherit =>
    cases v with
    | «class» => exact .next _ _
    | _ => exact .aborts _ _
  | binaryRight | choose | fieldValue | print | var | ifElse | «return» => exact .next _ _

theorem grafts_complete (c : Completion) (k : StmtCont) (h : ¬ (Control.complete c k).Grounded) :
    (st.complete c k).Grafts g (st.complete c (k.graft g)) := by
  cases k with
  | program rest => exact absurd (.stmt c rest) h
  | seq rest k => cases c <;> cases rest <;> exact .next _ _
  | leave => exact .next _ _
  | loop => cases c <;> exact .next _ _
  | activation => exact Progress.grafts_deliverOr _

end State

namespace Config

variable {c d : Config} {a : Abort} {st' : State} {event : Option Event}

/-- A step above the bottom is the same step above any other. -/
theorem step_graft (h : ¬ c.control.Grounded) :
    (c.step setup).Grafts g ((c.graft g).step setup) := by
  obtain ⟨control, st⟩ := c
  cases control with
  | evaluate e k => exact State.grafts_evaluate e
  | execute s k => exact State.grafts_execute s k
  | deliver v k => exact State.grafts_deliver v k h
  | complete completion k => exact State.grafts_complete completion k h

theorem next_graft (h : ¬ c.control.Grounded) (hnext : c.step setup = .next d event) :
    (c.graft g).step setup = .next (d.graft g) event := by
  have hgrafts : (c.step setup).Grafts g ((c.graft g).step setup) := step_graft h
  rw [hnext] at hgrafts
  generalize (c.graft g).step setup = p at hgrafts
  cases hgrafts
  rfl

theorem abort_graft (h : ¬ c.control.Grounded) (habort : c.step setup = .halt (.aborted a) st') :
    (c.graft g).step setup = .halt (.aborted a) st' := by
  have hgrafts : (c.step setup).Grafts g ((c.graft g).step setup) := step_graft h
  rw [habort] at hgrafts
  generalize (c.graft g).step setup = p at hgrafts
  cases hgrafts
  rfl

/-- Above the bottom a run halts only where it is cut off. -/
theorem exists_abort (h : ¬ c.control.Grounded) {halt : Halt}
    (hhalt : c.step setup = .halt halt st') : ∃ a, halt = .aborted a := by
  have hgrafts : (c.step setup).Grafts _ ((c.graft ⟨.answer, .program []⟩).step setup) :=
    step_graft h
  rw [hhalt] at hgrafts
  generalize (c.graft _).step setup = p at hgrafts
  cases hgrafts
  exact ⟨_, rfl⟩

end Config

end Steps

/-! ## Runs on their own -/

/-- A configuration on its own: a value at the bottom is the answer, and nothing follows a
statement there. -/
def Config.Alone (c : Config) : Prop := c.graft ⟨.answer, .program []⟩ = c

namespace Config

variable {setup : Setup} {c d : Config} {t : Transcript} {event : Option Event}

theorem Steps.trans {e : Config} {u : Transcript} (h : Steps setup c t d)
    (h' : Steps setup d u e) : Steps setup c (t ++ u) e := by
  induction h with
  | refl => exact h'
  | step first _ ih =>
    rw [List.append_assoc]
    exact .step first (ih h')

theorem Steps.exists_after (h : Steps setup c t d) : ∃ n, c.after? setup n = some d := by
  induction h with
  | refl => exact ⟨0, rfl⟩
  | step first _ ih =>
    obtain ⟨n, hn⟩ := ih
    exact ⟨n + 1, by rw [after?_next first, hn]⟩

theorem Steps.halts {u : Transcript} {halt : Halt} {st : State} (h : Steps setup c t d)
    (h' : Halts setup d u halt st) : Halts setup c (t ++ u) halt st := by
  obtain ⟨last, hsteps, hhalt⟩ := h'
  exact ⟨last, h.trans hsteps, hhalt⟩

/-- A run has one end. -/
theorem Steps.last_unique {e : Config} {u : Transcript} (h : Steps setup c t d)
    {halt halt' : Halt} {st st' : State} (hd : d.step setup = .halt halt st)
    (h' : Steps setup c u e) (he : e.step setup = .halt halt' st') : t = u ∧ d = e := by
  -- there is one step from a configuration, so the runs go together until both halt
  induction h generalizing u with
  | refl =>
    cases h' with
    | refl => exact ⟨rfl, rfl⟩
    | step first => cases hd.symm.trans first
  | step first _ ih =>
    cases h' with
    | refl => cases he.symm.trans first
    | step first' rest' =>
      cases first.symm.trans first'
      obtain ⟨rfl, rfl⟩ := ih hd rest'
      exact ⟨rfl, rfl⟩

namespace Alone

/-- What is handed to the bottom ends the run. -/
theorem exists_halt (h : c.Alone) (hground : c.control.Grounded) :
    ∃ halt, c.step setup = .halt halt c.state ∧ ∀ a, halt ≠ .aborted a := by
  obtain ⟨control, st⟩ := c
  cases hground with
  | value v => exact ⟨.value v, rfl, by simp⟩
  | stmt completion rest =>
    -- nothing follows
    have hrest : rest = [] := by
      have hsame := congrArg Config.control h
      simp only [graft, Control.graft, StmtCont.graft, Control.complete.injEq,
        StmtCont.program.injEq] at hsame
      exact hsame.2.symm
    subst hrest
    exact ⟨.finished, rfl, by simp⟩

theorem not_grounded (h : c.Alone) (hnext : c.step setup = .next d event) :
    ¬ c.control.Grounded := by
  intro hground
  obtain ⟨halt, hhalt, -⟩ := h.exists_halt hground
  cases hhalt.symm.trans hnext

theorem next (h : c.Alone) (hnext : c.step setup = .next d event) : d.Alone := by
  have hsame := next_graft (g := ⟨.answer, .program []⟩) (h.not_grounded hnext) hnext
  rw [h, hnext] at hsame
  injection hsame with hd
  exact hd.symm

theorem steps (h : c.Alone) (hsteps : Steps setup c t d) (g : Ground) :
    d.Alone ∧ Steps setup (c.graft g) t (d.graft g) := by
  induction hsteps with
  | refl => exact ⟨h, .refl _⟩
  | step first _ ih =>
    obtain ⟨hd, hrest⟩ := ih (h.next first)
    exact ⟨hd, .step (next_graft (h.not_grounded first) first) hrest⟩

/-- A run keeps a bottom that is its own. -/
theorem fixed (h : c.Alone) (hsteps : Steps setup c t d) {g : Ground} (hg : c.graft g = c) :
    d.graft g = d := by
  induction hsteps with
  | refl => exact hg
  | step first _ ih =>
    refine ih (h.next first) ?_
    have hsame := next_graft (g := g) (h.not_grounded first) first
    rw [hg, first] at hsame
    injection hsame with hb
    exact hb.symm

/-- A run on its own comes to the bottom, or is cut off, or goes on for ever; in the last case it
does so above any other bottom. -/
theorem trichotomy (h : c.Alone) (setup : Setup) :
    (∃ t d, Steps setup c t d ∧ d.control.Grounded) ∨
      (∃ t d a st, Steps setup c t d ∧ ¬ d.control.Grounded ∧
        d.step setup = .halt (.aborted a) st) ∨
      ∀ g n, ∃ d, (c.graft g).after? setup n = some d := by
  by_cases hends : ∃ t d halt st, Steps setup c t d ∧ d.step setup = .halt halt st
  · obtain ⟨t, d, halt, st, hsteps, hhalt⟩ := hends
    by_cases hground : d.control.Grounded
    · exact .inl ⟨t, d, hsteps, hground⟩
    · obtain ⟨a, rfl⟩ := exists_abort hground hhalt
      exact .inr (.inl ⟨t, d, a, st, hsteps, hground, hhalt⟩)
  · refine .inr (.inr fun g n => ?_)
    -- above the other bottom the run is the same, so it never halts
    have hsame : ∃ t d, Steps setup c t d ∧ (c.graft g).after? setup n = some (d.graft g) := by
      induction n with
      | zero => exact ⟨[], c, .refl c, rfl⟩
      | succ n ih =>
        obtain ⟨t, d, hsteps, hd⟩ := ih
        cases hstep : d.step setup with
        | halt halt st => exact absurd ⟨t, d, halt, st, hsteps, hstep⟩ hends
        | next e event =>
          have hnot := (h.steps hsteps g).1.not_grounded hstep
          exact ⟨_, e, hsteps.trans (.step hstep (.refl e)), after?_succ hd (next_graft hnot hstep)⟩
    obtain ⟨t, d, -, hd⟩ := hsame
    exact ⟨d.graft g, hd⟩

end Alone

end Config

/-! ## What comes to a value, or to the end of a statement -/

/-- What is done under any continuation comes to a value, or is cut off, in a state, with the same
to be seen. -/
def Delivers (setup : Setup) (c : ValueCont → Config) (t : Transcript) (r : Except Abort Value)
    (st : State) : Prop :=
  ∀ k, match r with
    | .ok v => Config.Steps setup (c k) t ⟨.deliver v k, st⟩
    | .error a => Config.Halts setup (c k) t (.aborted a) st

/-- What is done under any continuation comes to the end of a statement, or is cut off, in a state,
with the same to be seen. -/
def Completes (setup : Setup) (c : StmtCont → Config) (t : Transcript)
    (r : Except Abort Completion) (st : State) : Prop :=
  ∀ k, match r with
    | .ok x => Config.Steps setup (c k) t ⟨.complete x k, st⟩
    | .error a => Config.Halts setup (c k) t (.aborted a) st

/-- What is done goes on for ever, under any continuation. -/
def Endless {K : Type} (setup : Setup) (c : K → Config) : Prop :=
  ∀ k n, ∃ d, (c k).after? setup n = some d

/-- What the evaluation of an expression comes to. -/
abbrev Evaluates (setup : Setup) (e : ExprCode) (st : State) :
    Transcript → Except Abort Value → State → Prop :=
  Delivers setup (⟨.evaluate e ·, st⟩)

/-- What the execution of a statement comes to. -/
abbrev Executes (setup : Setup) (s : Code) (st : State) :
    Transcript → Except Abort Completion → State → Prop :=
  Completes setup (⟨.execute s ·, st⟩)

/-- What the execution of statements comes to, one after another in the environment of a state. -/
abbrev Performs (setup : Setup) (body : List Code) (st : State) :
    Transcript → Except Abort Completion → State → Prop :=
  Completes setup (fun k => ⟨.complete .normal (.seq body k), st⟩)

section Outcomes

open Config

variable {setup : Setup} {c : Config} {st st' : State} {t u : Transcript}

/-- What is done on its own, above the bottom that waits for a value, comes to one, or is cut off,
or goes on for ever; and it does so above any other bottom. -/
theorem Config.Alone.delivers_or_endless (h : c.Alone) (setup : Setup)
    (hbottom : c.graft ⟨.answer, .leave Store.globals (.program [])⟩ = c) :
    (∃ t r st, Delivers setup (fun k => c.graft ⟨k, .program []⟩) t r st) ∨
      Endless setup (fun k => c.graft ⟨k, .program []⟩) := by
  rcases h.trichotomy setup with ⟨t, d, hsteps, hground⟩ | ⟨t, d, a, st, hsteps, hnot, habort⟩ |
    hforever
  · obtain ⟨control, st⟩ := d
    cases hground with
    | value v => exact .inl ⟨t, .ok v, st, fun k => (h.steps hsteps ⟨k, .program []⟩).2⟩
    | stmt x rest =>
      -- the bottom is still the one that waits for a value
      cases congrArg Config.control (h.fixed hsteps hbottom)
  · refine .inl ⟨t, .error a, st, fun k => ⟨d.graft ⟨k, .program []⟩, ?_, abort_graft hnot habort⟩⟩
    exact (h.steps hsteps ⟨k, .program []⟩).2
  · exact .inr fun k n => hforever ⟨k, .program []⟩ n

/-- What is done on its own, above the bottom that waits for the end of a statement, comes to one,
or is cut off, or goes on for ever; and it does so above any other bottom. -/
theorem Config.Alone.completes_or_endless (h : c.Alone) (setup : Setup)
    (hbottom : c.graft ⟨.return (.program []), .program []⟩ = c) :
    (∃ t r st, Completes setup (fun k => c.graft ⟨.answer, k⟩) t r st) ∨
      Endless setup (fun k => c.graft ⟨.answer, k⟩) := by
  rcases h.trichotomy setup with ⟨t, d, hsteps, hground⟩ | ⟨t, d, a, st, hsteps, hnot, habort⟩ |
    hforever
  · obtain ⟨control, st⟩ := d
    cases hground with
    | value v =>
      -- the bottom is still the one that waits for the end of a statement
      cases congrArg Config.control (h.fixed hsteps hbottom)
    | stmt x rest => exact .inl ⟨t, .ok x, st, fun k => (h.steps hsteps ⟨.answer, k⟩).2⟩
  · refine .inl ⟨t, .error a, st, fun k => ⟨d.graft ⟨.answer, k⟩, ?_, abort_graft hnot habort⟩⟩
    exact (h.steps hsteps ⟨.answer, k⟩).2
  · exact .inr fun k n => hforever ⟨.answer, k⟩ n

theorem evaluates_or_endless (setup : Setup) (e : ExprCode) (st : State) :
    (∃ t r st', Evaluates setup e st t r st') ∨ Endless setup (⟨.evaluate e ·, st⟩) :=
  Alone.delivers_or_endless (c := ⟨.evaluate e .answer, st⟩) rfl setup rfl

theorem executes_or_endless (setup : Setup) (s : Code) (st : State) :
    (∃ t r st', Executes setup s st t r st') ∨ Endless setup (⟨.execute s ·, st⟩) :=
  Alone.completes_or_endless (c := ⟨.execute s (.program []), st⟩) rfl setup rfl

theorem performs_or_endless (setup : Setup) (body : List Code) (st : State) :
    (∃ t r st', Performs setup body st t r st') ∨
      Endless setup (fun k => ⟨.complete .normal (.seq body k), st⟩) :=
  Alone.completes_or_endless (c := ⟨.complete .normal (.seq body (.program [])), st⟩) rfl setup rfl

/-- A run that comes to an end does not go on for ever. -/
theorem Config.Steps.ends {d : Config} (h : Steps setup c t d) {halt : Halt} {last : State}
    (hd : d.step setup = .halt halt last) : ∃ n, ∀ m, n ≤ m → c.after? setup m = none := by
  induction h with
  | refl =>
    refine ⟨1, fun m hm => ?_⟩
    obtain ⟨m, rfl⟩ := Nat.exists_eq_add_of_le' hm
    simp [after?, hd]
  | step first _ ih =>
    obtain ⟨n, hn⟩ := ih hd
    refine ⟨n + 1, fun m hm => ?_⟩
    obtain ⟨m, rfl⟩ := Nat.exists_eq_add_of_le' (Nat.le_of_add_left_le hm)
    rw [after?_next first]
    exact hn m (by omega)

/-- One step first, under a continuation that may be another one. -/
theorem Endless.of_next {K L : Type} {f : K → Config} {g : L → Config} (h : Endless setup g)
    (next : K → L) (event : Option Event)
    (hnext : ∀ k, (f k).step setup = .next (g (next k)) event) : Endless setup f := by
  intro k n
  cases n with
  | zero => exact ⟨f k, rfl⟩
  | succ n =>
    rw [after?_next (hnext k)]
    exact h (next k) n

namespace Completes

variable {f : StmtCont → Config} {r r' : Except Abort Completion}

/-- What is done under the bottom has an end there. -/
theorem exists_halt (h : Completes setup f t r st) : ∃ d halt last,
    Steps setup (f (.program [])) t d ∧ d.step setup = .halt halt last := by
  have hrun := h (.program [])
  cases r with
  | ok x => exact ⟨_, .finished, st, hrun, rfl⟩
  | error a =>
    obtain ⟨last, hsteps, habort⟩ := hrun
    exact ⟨last, .aborted a, st, hsteps, habort⟩

theorem ends (h : Completes setup f t r st) :
    ∃ n, ∀ m, n ≤ m → (f (.program [])).after? setup m = none := by
  obtain ⟨d, halt, last, hsteps, hhalt⟩ := h.exists_halt
  exact hsteps.ends hhalt

/-- There is one end, with the same to be seen. -/
theorem unique (h : Completes setup f t r st) (h' : Completes setup f u r' st') :
    t = u ∧ r = r' ∧ st = st' := by
  -- at the bottom the ends of both are ends of one run
  have hleft := h (.program [])
  have hright := h' (.program [])
  cases r with
  | ok x =>
    cases r' with
    | ok x' =>
      obtain ⟨rfl, hlast⟩ := hleft.last_unique rfl hright rfl
      cases hlast
      exact ⟨rfl, rfl, rfl⟩
    | error a =>
      obtain ⟨last, hsteps, habort⟩ := hright
      obtain ⟨-, rfl⟩ := hleft.last_unique rfl hsteps habort
      cases habort
  | error a =>
    obtain ⟨last, hsteps, habort⟩ := hleft
    cases r' with
    | ok x' =>
      obtain ⟨-, rfl⟩ := hsteps.last_unique habort hright rfl
      cases habort
    | error a' =>
      obtain ⟨last', hsteps', habort'⟩ := hright
      obtain ⟨rfl, rfl⟩ := hsteps.last_unique habort hsteps' habort'
      cases habort.symm.trans habort'
      exact ⟨rfl, rfl, rfl⟩

/-- What has an end does not go on for ever. -/
theorem not_endless (h : Completes setup f t r st) : ¬ Endless setup f := by
  intro hforever
  obtain ⟨n, hn⟩ := h.ends
  obtain ⟨d, hd⟩ := hforever (.program []) n
  rw [hn n (Nat.le_refl n)] at hd
  cases hd

/-- A step that ends the statement. -/
theorem of_end {x : Completion} (event : Option Event)
    (h : ∀ k, (f k).step setup = .next ⟨.complete x k, st⟩ event) :
    Completes setup f event.toList (.ok x) st := by
  intro k
  have hstep : Steps setup (f k) (event.toList ++ []) ⟨.complete x k, st⟩ := .step (h k) (.refl _)
  rwa [List.append_nil] at hstep

/-- A step that is cut off. -/
theorem of_abort {a : Abort} (h : ∀ k, (f k).step setup = .halt (.aborted a) st) :
    Completes setup f [] (.error a) st :=
  fun k => ⟨f k, .refl _, h k⟩

/-- One step first. -/
theorem of_next {g : StmtCont → Config} (event : Option Event)
    (h : ∀ k, (f k).step setup = .next (g k) event) (hg : Completes setup g t r st) :
    Completes setup f (event.toList ++ t) r st := by
  intro k
  have hrest := hg k
  cases r with
  | ok x => exact .step (h k) hrest
  | error a =>
    obtain ⟨last, hsteps, habort⟩ := hrest
    exact ⟨last, .step (h k) hsteps, habort⟩

end Completes

/-- A statement that is cut off where nothing follows is cut off under any continuation. -/
theorem executes_of_halts {s : Code} {a : Abort}
    (h : Halts setup ⟨.execute s (.program []), st⟩ t (.aborted a) st') :
    Executes setup s st t (.error a) st' := by
  obtain ⟨last, hsteps, habort⟩ := h
  rcases executes_or_endless setup s st with ⟨u, r, found, hends⟩ | hforever
  · have hrun := hends (.program [])
    cases r with
    | ok x =>
      -- the bottom would end the run without cutting it off
      obtain ⟨-, rfl⟩ := hsteps.last_unique habort hrun rfl
      cases habort
    | error b =>
      obtain ⟨last', hsteps', habort'⟩ := hrun
      obtain ⟨rfl, rfl⟩ := hsteps.last_unique habort hsteps' habort'
      cases habort.symm.trans habort'
      exact hends
  · obtain ⟨n, hn⟩ := hsteps.ends habort
    obtain ⟨d, hd⟩ := hforever (.program []) n
    rw [hn n (Nat.le_refl n)] at hd
    cases hd

namespace Delivers

variable {c : ValueCont → Config} {K : StmtCont → ValueCont}

/-- What a statement needs the value of is cut off. -/
theorem completes_error {a : Abort} (h : Delivers setup c t (.error a) st)
    (K : StmtCont → ValueCont) : Completes setup (fun k => c (K k)) t (.error a) st :=
  fun k => h (K k)

/-- What a statement needs the value of comes to one, and the statement goes on. -/
theorem completes_ok {v : Value} {r : Except Abort Completion} (h : Delivers setup c t (.ok v) st)
    (hK : Completes setup (fun k => ⟨.deliver v (K k), st⟩) u r st') :
    Completes setup (fun k => c (K k)) (t ++ u) r st' := by
  intro k
  have hrest := hK k
  cases r with
  | ok x => exact (h (K k)).trans hrest
  | error a => exact (h (K k)).halts hrest

end Delivers

end Outcomes

end Lox
