import Lox.Proofs.Machine.Graft

/-!
# How loops run

A `for` loop executes its initializer once, in a scope of its own, and then goes in rounds: it
tests the condition, and while that is truthy it executes the body, and the increment after it in
the same scope. It ends when the condition is falsy; when the body returns, neither the increment
nor the condition is reached any more.

## Main definitions

* `ForLoop`, `ForLoop.tree`: the clauses of a loop and the statement that they make
* `ForLoop.Stage`, `ForLoop.Comes`: what a loop does next, and how it gets there
* `ForLoop.Gives`: how a loop ends

## Main results

* `ForLoop.Comes.reaches`: under any continuation the machine comes to each stage of the loop
* `ForLoop.executes_iff`: a loop ends as its clauses say, and in no other way
* `ForLoop.endless_or_rounds`: a loop that does not end goes on in one of its clauses, or in rounds
-/

namespace Lox

/-- The clauses of a `for` loop. -/
structure ForLoop (μ : Type) where
  /-- The initializer. -/
  first : Option (Stmt μ)
  /-- The condition. -/
  condition : Option (Expr μ)
  /-- The increment. -/
  increment : Option (Expr μ)
  /-- The body. -/
  body : Stmt μ

/-- What is seen of the value of an expression statement. -/
def echo (setup : Setup) (st : State) (v : Value) : Transcript :=
  if setup.interactive then [.echoed (st.store.text v)] else []

namespace ForLoop

section Tree

variable {μ : Type} (l : ForLoop μ)

/-- The statement that the clauses make. -/
def tree : Stmt μ := Stmt.forLoop l.first l.condition l.increment l.body

/-- What is tested before each round: without a condition, what is always true. -/
def test : Expr μ := l.condition.getD (.literal (.bool true))

/-- What is executed in each round. -/
def round : Stmt μ := Stmt.round l.body l.increment

/-- The clauses numbered from `n` on, in the order in which they stand in the statement. -/
def number (n : Occurrence) : ForLoop Occurrence :=
  let first := l.first.map (·.number n)
  let condition := Expr.number? ((first.map (·.2)).getD n) l.condition
  let body := l.body.number condition.2
  ⟨first.map (·.1), condition.1, (Expr.number? body.2 l.increment).1, body.1⟩

/-- Numbering the statement numbers the clauses. -/
theorem number_tree (n : Occurrence) : (l.tree.number n).1 = (l.number n).tree := by
  obtain ⟨first, condition, increment, body⟩ := l
  cases first <;> cases condition <;> cases increment <;> rfl

end Tree

/-! ## Stages -/

/-- What a loop does next. -/
inductive Stage where
  /-- The initializer. -/
  | first (s : Code)
  /-- The condition. -/
  | test
  /-- The body; the loop goes on in the environment `outer`. -/
  | body (outer : EnvId)
  /-- The increment; the loop goes on in the environment `outer`. -/
  | increment (e : ExprCode) (outer : EnvId)

variable (setup : Setup) (l : ForLoop Occurrence) (start : State)

/-- The state in which the body is executed: in a scope of its own, if an increment follows. -/
def enterRound (st : State) : State :=
  match l.increment with
  | none => st
  | some _ => st.enterBlock

/-- The state after a round that ended. -/
def leaveRound (outer : EnvId) : Except Abort Completion → State → State
  | .ok _, st => match l.increment with
    | none => st
    | some _ => st.leaveFor outer
  | .error _, st => st

/-- The state after the loop: the scope of the initializer is left. -/
def close : Except Abort Completion → State → State
  | .ok _, st => match l.first with
    | none => st
    | some _ => st.leaveFor start.environment
  | .error _, st => st

/-- A loop that starts in the state `start` comes to a stage in a state, after a number of rounds
and after what could be seen. -/
inductive Comes : Nat → Stage → State → Transcript → Prop where
  /-- The initializer comes first, in a scope of its own. -/
  | opens {s : Code} (h : l.first = some s) : Comes 0 (.first s) start.enterBlock []
  /-- Without one the condition is tested at once. -/
  | starts (h : l.first = none) : Comes 0 .test start []
  /-- The condition is tested after the initializer. -/
  | initialized {s : Code} {st st' : State} {t u : Transcript} (h : Comes 0 (.first s) st t)
      (hs : Executes setup s st u (.ok .normal) st') : Comes 0 .test st' (t ++ u)
  /-- The body is executed where the condition is truthy. -/
  | enters {n : Nat} {v : Value} {st st' : State} {t u : Transcript} (h : Comes n .test st t)
      (he : Evaluates setup l.test st u (.ok v) st') (hv : v.truthy) :
      Comes n (.body st'.environment) (l.enterRound st') (t ++ u)
  /-- Without an increment the condition is tested again after the body. -/
  | again {n : Nat} {outer : EnvId} {st st' : State} {t u : Transcript}
      (h : Comes n (.body outer) st t) (hi : l.increment = none)
      (hs : Executes setup l.body st u (.ok .normal) st') : Comes (n + 1) .test st' (t ++ u)
  /-- The increment is evaluated after the body. -/
  | increments {n : Nat} {outer : EnvId} {e : ExprCode} {st st' : State} {t u : Transcript}
      (h : Comes n (.body outer) st t) (hi : l.increment = some e)
      (hs : Executes setup l.body st u (.ok .normal) st') :
      Comes n (.increment e outer) st' (t ++ u)
  /-- The condition is tested again after the increment. -/
  | incremented {n : Nat} {outer : EnvId} {e : ExprCode} {v : Value} {st st' : State}
      {t u : Transcript} (h : Comes n (.increment e outer) st t)
      (he : Evaluates setup e st u (.ok v) st') :
      Comes (n + 1) .test (st'.leaveFor outer) (t ++ (u ++ echo setup st' v))

/-- How a loop that starts in the state `start` ends. -/
inductive Gives : Transcript → Except Abort Completion → State → Prop where
  /-- The initializer is cut off, or leaves the loop. -/
  | first {s : Code} {r : Except Abort Completion} {st st' : State} {t u : Transcript}
      (h : Comes setup l start 0 (.first s) st t) (hs : Executes setup s st u r st')
      (hr : r ≠ .ok .normal) : Gives (t ++ u) r (l.close start r st')
  /-- The condition is falsy. -/
  | stops {n : Nat} {v : Value} {st st' : State} {t u : Transcript}
      (h : Comes setup l start n .test st t) (he : Evaluates setup l.test st u (.ok v) st')
      (hv : v.truthy = false) : Gives (t ++ u) (.ok .normal) (l.close start (.ok .normal) st')
  /-- The condition is cut off. -/
  | test {n : Nat} {a : Abort} {st st' : State} {t u : Transcript}
      (h : Comes setup l start n .test st t) (he : Evaluates setup l.test st u (.error a) st') :
      Gives (t ++ u) (.error a) st'
  /-- The body returns or is cut off: nothing else of the loop is reached. -/
  | body {n : Nat} {outer : EnvId} {r : Except Abort Completion} {st st' : State}
      {t u : Transcript} (h : Comes setup l start n (.body outer) st t)
      (hs : Executes setup l.body st u r st') (hr : r ≠ .ok .normal) :
      Gives (t ++ u) r (l.close start r (l.leaveRound outer r st'))
  /-- The increment is cut off. -/
  | increment {n : Nat} {outer : EnvId} {e : ExprCode} {a : Abort} {st st' : State}
      {t u : Transcript} (h : Comes setup l start n (.increment e outer) st t)
      (he : Evaluates setup e st u (.error a) st') : Gives (t ++ u) (.error a) st'

/-! ## The machine at the stages -/

/-- What is done after the rounds. -/
def after (k : StmtCont) : StmtCont :=
  match l.first with
  | none => k
  | some _ => .seq [] (.leave start.environment k)

/-- What is done after a round. -/
def next (k : StmtCont) : StmtCont := .loop l.test l.round (l.after start k)

/-- What is done after the body. -/
def afterBody (outer : EnvId) (k : StmtCont) : StmtCont :=
  match l.increment with
  | none => l.next start k
  | some e => .seq [.expression e] (.leave outer (l.next start k))

/-- What the machine does at a stage of a loop. -/
def control (k : StmtCont) : Stage → Control
  | .first s => .execute s (.seq [.while l.test l.round] (.leave start.environment k))
  | .test => .evaluate l.test (.while l.test l.round (l.after start k))
  | .body outer => .execute l.body (l.afterBody start outer k)
  | .increment e outer => .evaluate e (.expression (.seq [] (.leave outer (l.next start k))))

end ForLoop

/-- A configuration is reached after at least a number of steps. -/
structure Config.Reaches (setup : Setup) (n : Nat) (c : Config) (t : Transcript) (d : Config) :
    Prop where
  /-- It is reached, after what could be seen. -/
  steps : Steps setup c t d
  /-- There are as many steps. -/
  after : ∃ m, n ≤ m ∧ c.after? setup m = some d

namespace Config

variable {setup : Setup} {m n : Nat} {c d e : Config} {t u : Transcript}

theorem Reaches.refl (c : Config) : Reaches setup 0 c [] c := ⟨.refl c, 0, Nat.le_refl 0, rfl⟩

theorem Reaches.of_steps (h : Steps setup c t d) : Reaches setup 0 c t d := by
  obtain ⟨n, hn⟩ := h.exists_after
  exact ⟨h, n, Nat.zero_le n, hn⟩

theorem Reaches.trans (h : Reaches setup m c t d) (h' : Reaches setup n d u e) :
    Reaches setup (m + n) c (t ++ u) e := by
  obtain ⟨hsteps, i, hi, hd⟩ := h
  obtain ⟨hsteps', j, hj, he⟩ := h'
  exact ⟨hsteps.trans hsteps', i + j, Nat.add_le_add hi hj, by rw [after?_add hd, he]⟩

theorem Reaches.mono (h : Reaches setup n c t d) (hm : m ≤ n) : Reaches setup m c t d := by
  obtain ⟨hsteps, i, hi, hd⟩ := h
  exact ⟨hsteps, i, Nat.le_trans hm hi, hd⟩

/-- A step in which nothing is seen, and what is reached after it. -/
theorem Reaches.step (h : c.step setup = .next d none) (h' : Reaches setup n d t e) :
    Reaches setup (n + 1) c t e := by
  obtain ⟨hsteps, i, hi, he⟩ := h'
  exact ⟨.step h hsteps, i + 1, Nat.succ_le_succ hi, by rw [after?_next h, he]⟩

end Config

namespace ForLoop

open Config

variable {setup : Setup} {l : ForLoop Occurrence} {start st : State} {k : StmtCont} {n : Nat}
  {stage : Stage} {t : Transcript}

/-- A loop starts with its initializer, or else with the test. -/
theorem reaches_first {s : Code} (h : l.first = some s) :
    Reaches setup 0 ⟨.execute l.tree k, start⟩ []
      ⟨l.control start k (.first s), start.enterBlock⟩ := by
  obtain ⟨first, condition, increment, body⟩ := l
  cases h
  exact (Reaches.step rfl (.step rfl (.refl _))).mono (Nat.zero_le 2)

theorem reaches_start (h : l.first = none) :
    Reaches setup 0 ⟨.execute l.tree k, start⟩ [] ⟨l.control start k .test, start⟩ := by
  obtain ⟨first, condition, increment, body⟩ := l
  cases h
  exact (Reaches.step rfl (.refl _)).mono (Nat.zero_le 1)

/-- After the initializer the condition is tested. -/
theorem reaches_test {s : Code} (h : l.first = some s) (st : State) :
    Reaches setup 0
      ⟨.complete .normal (.seq [.while l.test l.round] (.leave start.environment k)), st⟩ []
      ⟨l.control start k .test, st⟩ := by
  obtain ⟨first, condition, increment, body⟩ := l
  cases h
  exact (Reaches.step rfl (.step rfl (.refl _))).mono (Nat.zero_le 2)

/-- Where the condition is truthy the body is executed. -/
theorem reaches_body {v : Value} (hv : v.truthy) (st : State) :
    Reaches setup 0 ⟨.deliver v (.while l.test l.round (l.after start k)), st⟩ []
      ⟨l.control start k (.body st.environment), l.enterRound st⟩ := by
  have hround : Config.step setup ⟨.deliver v (.while l.test l.round (l.after start k)), st⟩ =
      .next ⟨.execute l.round (l.next start k), st⟩ none := by
    simp only [Config.step, State.deliver, if_pos hv]
    rfl
  refine (Reaches.step (n := 0) hround ?_).mono (Nat.zero_le 1)
  obtain ⟨first, condition, increment, body⟩ := l
  cases increment with
  | none => exact .refl _
  | some e => exact (Reaches.step rfl (.step rfl (.refl _))).mono (Nat.zero_le 2)

/-- Without an increment the condition is tested again after the body. -/
theorem reaches_again (h : l.increment = none) (outer : EnvId) (st : State) :
    Reaches setup 1 ⟨.complete .normal (l.afterBody start outer k), st⟩ []
      ⟨l.control start k .test, st⟩ := by
  obtain ⟨first, condition, increment, body⟩ := l
  cases h
  exact .step rfl (.refl _)

/-- The increment is evaluated after the body. -/
theorem reaches_increment {e : ExprCode} (h : l.increment = some e) (outer : EnvId) (st : State) :
    Reaches setup 0 ⟨.complete .normal (l.afterBody start outer k), st⟩ []
      ⟨l.control start k (.increment e outer), st⟩ := by
  obtain ⟨first, condition, increment, body⟩ := l
  cases h
  exact (Reaches.step rfl (.step rfl (.refl _))).mono (Nat.zero_le 2)

/-- The value of the increment is dropped or echoed, and the condition is tested again. -/
theorem reaches_incremented (v : Value) (outer : EnvId) (st : State) :
    Reaches setup 1
      ⟨.deliver v (.expression (.seq [] (.leave outer (l.next start k)))), st⟩ (echo setup st v)
      ⟨l.control start k .test, st.leaveFor outer⟩ := by
  have hrest : Reaches setup 3 ⟨.complete .normal (.seq [] (.leave outer (l.next start k))), st⟩ []
      ⟨l.control start k .test, st.leaveFor outer⟩ :=
    .step rfl (.step rfl (.step rfl (.refl _)))
  unfold echo
  -- in interactive use the value is shown before it is dropped
  by_cases hecho : setup.interactive
  · have hstep : Config.step setup
        ⟨.deliver v (.expression (.seq [] (.leave outer (l.next start k)))), st⟩ =
        .next ⟨.complete .normal (.seq [] (.leave outer (l.next start k))), st⟩
          (some (.echoed (st.store.text v))) := by
      simp only [Config.step, State.deliver, if_pos hecho]
      rfl
    rw [if_pos hecho]
    have hfirst : Reaches setup 0 _ _ _ := .of_steps (.step hstep (.refl _))
    exact (hfirst.trans hrest).mono (by omega)
  · have hstep : Config.step setup
        ⟨.deliver v (.expression (.seq [] (.leave outer (l.next start k)))), st⟩ =
        .next ⟨.complete .normal (.seq [] (.leave outer (l.next start k))), st⟩ none := by
      simp only [Config.step, State.deliver, if_neg hecho]
      rfl
    rw [if_neg hecho]
    exact (Reaches.step hstep hrest).mono (by omega)

/-- Only a loop with an initializer comes to one. -/
theorem Comes.first_eq {s : Code} (h : Comes setup l start n (.first s) st t) :
    l.first = some s := by
  cases h with
  | opens h => exact h

/-- Under any continuation the machine comes to each stage of the loop, after as many steps at least
as there were rounds. -/
theorem Comes.reaches (h : Comes setup l start n stage st t) (k : StmtCont) :
    Reaches setup n ⟨.execute l.tree k, start⟩ t ⟨l.control start k stage, st⟩ := by
  induction h with
  | opens h => exact reaches_first h
  | starts h => exact reaches_start h
  | @initialized s st st' t u h hs ih =>
    have hclause : Reaches setup 0 _ u _ :=
      .of_steps (hs (.seq [.while l.test l.round] (.leave start.environment k)))
    simpa using ih.trans (hclause.trans (reaches_test h.first_eq st'))
  | @enters n v st st' t u _ he hv ih =>
    have hclause : Reaches setup 0 _ u _ :=
      .of_steps (he (.while l.test l.round (l.after start k)))
    simpa using ih.trans (hclause.trans (reaches_body hv st'))
  | @again n outer st st' t u _ hi hs ih =>
    have hclause : Reaches setup 0 _ u _ := .of_steps (hs (l.afterBody start outer k))
    simpa using ih.trans (hclause.trans (reaches_again hi outer st'))
  | @increments n outer e st st' t u _ hi hs ih =>
    have hclause : Reaches setup 0 _ u _ := .of_steps (hs (l.afterBody start outer k))
    simpa using ih.trans (hclause.trans (reaches_increment hi outer st'))
  | @incremented n outer e v st st' t u _ he ih =>
    have hclause : Reaches setup 0 _ u _ :=
      .of_steps (he (.expression (.seq [] (.leave outer (l.next start k)))))
    simpa using ih.trans (hclause.trans (reaches_incremented v outer st'))

/-! ## The end of a loop -/

/-- What ends the loop hands its end on, past the scope of the initializer. -/
theorem steps_close (c : Completion) (st : State) :
    Steps setup ⟨.complete c (l.after start k), st⟩ []
      ⟨.complete c k, l.close start (.ok c) st⟩ := by
  obtain ⟨first, condition, increment, body⟩ := l
  cases first with
  | none => exact .refl _
  | some s =>
    have hseq : Config.step setup ⟨.complete c (.seq [] (.leave start.environment k)), st⟩ =
        .next ⟨.complete c (.leave start.environment k), st⟩ none := by
      cases c <;> rfl
    exact (Reaches.step hseq (.step rfl (.refl _))).steps

/-- A value that the body returns passes the increment and the condition by. -/
theorem steps_return (v : Value) (outer : EnvId) (st : State) :
    Steps setup ⟨.complete (.returned v) (l.afterBody start outer k), st⟩ []
      ⟨.complete (.returned v) (l.after start k), l.leaveRound outer (.ok (.returned v)) st⟩ := by
  obtain ⟨first, condition, increment, body⟩ := l
  cases increment with
  | none => exact (Reaches.step rfl (.refl _)).steps
  | some e => exact (Reaches.step rfl (.step rfl (.step rfl (.refl _)))).steps

/-- A statement of the loop that returns, under what comes after it. -/
theorem returned_of_ne {c : Completion}
    (h : (Except.ok c : Except Abort Completion) ≠ .ok .normal) : ∃ v, c = .returned v := by
  cases c with
  | normal => exact absurd rfl h
  | returned v => exact ⟨v, rfl⟩

/-- A loop ends as its clauses say. -/
theorem Gives.executes {r : Except Abort Completion} (h : Gives setup l start t r st) :
    Executes setup l.tree start t r st := by
  intro k
  cases h with
  | @first s r st st' t u h hs hr =>
    have hfirst := h.first_eq
    have hclause := hs (.seq [.while l.test l.round] (.leave start.environment k))
    cases r with
    | error a => exact (h.reaches k).steps.halts hclause
    | ok c =>
      obtain ⟨v, rfl⟩ := returned_of_ne hr
      -- a value that leaves the initializer passes the whole loop by
      have hskip : Steps setup ⟨.complete (.returned v)
          (.seq [.while l.test l.round] (.leave start.environment k)), st'⟩ []
          ⟨.complete (.returned v) k, l.close start (.ok (.returned v)) st'⟩ := by
        obtain ⟨first, condition, increment, body⟩ := l
        cases hfirst
        exact (Reaches.step rfl (.step rfl (.refl _))).steps
      simpa using (h.reaches k).steps.trans (hclause.trans hskip)
  | @stops n v st st' t u h he hv =>
    have hfalsy : Config.step setup
        ⟨.deliver v (.while l.test l.round (l.after start k)), st'⟩ =
        .next ⟨.complete .normal (l.after start k), st'⟩ none := by
      simp only [Config.step, State.deliver, if_neg (by simp [hv] : ¬ v.truthy = true)]
      rfl
    have hend : Steps setup _ _ _ := .step hfalsy (steps_close .normal st')
    simpa using (h.reaches k).steps.trans
      ((he (.while l.test l.round (l.after start k))).trans hend)
  | @test n a st st' t u h he =>
    exact (h.reaches k).steps.halts (he (.while l.test l.round (l.after start k)))
  | @body n outer r st st' t u h hs hr =>
    have hclause := hs (l.afterBody start outer k)
    cases r with
    | error a => exact (h.reaches k).steps.halts hclause
    | ok c =>
      obtain ⟨v, rfl⟩ := returned_of_ne hr
      have hreturn : Steps setup ⟨.complete (.returned v) (l.afterBody start outer k), st'⟩ [] _ :=
        steps_return v outer st'
      have hend := hreturn.trans (steps_close (.returned v) _)
      simpa using (h.reaches k).steps.trans (hclause.trans hend)
  | @increment n outer e a st st' t u h he =>
    exact (h.reaches k).steps.halts (he (.expression (.seq [] (.leave outer (l.next start k)))))

/-- What is done at a stage goes on for ever, under any continuation. -/
def Stage.Endless (setup : Setup) (l : ForLoop Occurrence) (st : State) : Stage → Prop
  | .first s => Lox.Endless setup (⟨.execute s ·, st⟩)
  | .test => Lox.Endless setup (⟨.evaluate l.test ·, st⟩)
  | .body _ => Lox.Endless setup (⟨.execute l.body ·, st⟩)
  | .increment e _ => Lox.Endless setup (⟨.evaluate e ·, st⟩)

/-- The machine goes on for ever at a stage that does. -/
theorem Stage.Endless.control (h : stage.Endless setup l st) (k : StmtCont) (n : Nat) :
    ∃ d, Config.after? setup n ⟨l.control start k stage, st⟩ = some d := by
  cases stage with
  | first | test | body | increment => exact h _ n

section Rounds

variable (hnone : ¬ ∃ t r st', Gives setup l start t r st')
  (hsettled : ∀ {n stage st t}, Comes setup l start n stage st t → ¬ stage.Endless setup l st)

include hnone hsettled

/-- Where no clause goes on for ever and the loop does not end, the condition is tested. -/
theorem exists_test : ∃ st t, Comes setup l start 0 .test st t := by
  cases hfirst : l.first with
  | none => exact ⟨start, [], .starts hfirst⟩
  | some s =>
    have hopens : Comes setup l start 0 (.first s) start.enterBlock [] := .opens hfirst
    obtain ⟨u, r, st', hs⟩ :=
      (executes_or_endless setup s start.enterBlock).resolve_right (hsettled hopens)
    by_cases hr : r = .ok .normal
    · subst hr
      exact ⟨st', _, .initialized hopens hs⟩
    · exact absurd ⟨_, _, _, .first hopens hs hr⟩ hnone

/-- The condition is truthy, so the body follows it. -/
theorem Comes.exists_body (h : Comes setup l start n .test st t) :
    ∃ outer st' t', Comes setup l start n (.body outer) st' t' := by
  obtain ⟨u, r, st', he⟩ := (evaluates_or_endless setup l.test st).resolve_right (hsettled h)
  cases r with
  | error a => exact absurd ⟨_, _, _, .test h he⟩ hnone
  | ok v =>
    cases hv : v.truthy with
    | false => exact absurd ⟨_, _, _, .stops h he hv⟩ hnone
    | true => exact ⟨_, _, _, .enters h he hv⟩

/-- The body and the increment end normally, so the condition is tested again. -/
theorem Comes.exists_again {outer : EnvId} (h : Comes setup l start n (.body outer) st t) :
    ∃ st' t', Comes setup l start (n + 1) .test st' t' := by
  obtain ⟨u, r, st', hs⟩ := (executes_or_endless setup l.body st).resolve_right (hsettled h)
  by_cases hr : r = .ok .normal
  · subst hr
    cases hi : l.increment with
    | none => exact ⟨st', _, .again h hi hs⟩
    | some e =>
      have hinc := Comes.increments h hi hs
      obtain ⟨x, r, last, he⟩ :=
        (evaluates_or_endless setup e st').resolve_right (hsettled hinc)
      cases r with
      | error a => exact absurd ⟨_, _, _, .increment hinc he⟩ hnone
      | ok v => exact ⟨_, _, .incremented hinc he⟩
  · exact absurd ⟨_, _, _, .body h hs hr⟩ hnone

end Rounds

/-- A loop that does not end as its clauses say goes on for ever in one of them, or in rounds. -/
theorem endless_or_rounds (h : ¬ ∃ t r st', Gives setup l start t r st') :
    (∃ n stage st t, Comes setup l start n stage st t ∧ stage.Endless setup l st) ∨
      ∀ n, ∃ st t, Comes setup l start n .test st t := by
  by_cases hendless : ∃ n stage st t, Comes setup l start n stage st t ∧ stage.Endless setup l st
  · exact .inl hendless
  have hsettled : ∀ {n stage st t}, Comes setup l start n stage st t →
      ¬ stage.Endless setup l st := fun hcomes hstage => hendless ⟨_, _, _, _, hcomes, hstage⟩
  refine .inr fun n => ?_
  -- by induction on the number of rounds, each of which leads from one test to the next
  induction n with
  | zero => exact exists_test h hsettled
  | succ n ih =>
    obtain ⟨st, t, htest⟩ := ih
    obtain ⟨outer, st', t', hbody⟩ := htest.exists_body h hsettled
    exact hbody.exists_again h hsettled

/-- A loop ends as its clauses say, and in no other way. -/
theorem executes_iff {r : Except Abort Completion} :
    Executes setup l.tree start t r st ↔ Gives setup l start t r st := by
  constructor
  · intro h
    by_cases hgives : ∃ t r st, Gives setup l start t r st
    · obtain ⟨t', r', st', hgives⟩ := hgives
      obtain ⟨rfl, rfl, rfl⟩ := h.unique hgives.executes
      exact hgives
    · -- a run that goes on for ever in the loop contradicts the end that it has
      exfalso
      obtain ⟨m, hm⟩ := h.ends
      rcases endless_or_rounds hgives with ⟨n, stage, st', t', hcomes, hendless⟩ | hrounds
      · obtain ⟨i, -, hi⟩ := (hcomes.reaches (.program [])).after
        obtain ⟨d, hd⟩ : ∃ d, after? setup m ⟨l.control start (.program []) stage, st'⟩ = some d :=
          hendless.control (.program []) m
        have hlater := after?_add hi (n := m)
        rw [hd, hm (i + m) (by omega)] at hlater
        cases hlater
      · obtain ⟨st', t', hcomes⟩ := hrounds m
        obtain ⟨i, hi, hd⟩ := (hcomes.reaches (.program [])).after
        rw [hm i hi] at hd
        cases hd
  · exact Gives.executes

end ForLoop

end Lox
