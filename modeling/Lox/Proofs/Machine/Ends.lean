import Lox.Proofs.Machine.Returns
import Lox.Proofs.Machine.Words

/-!
# How calls end

A call of a run begins with a step and is open until its body has come to an end. Then it has a
value, which what waits for the call expression is given in the environment of the caller. A value
that is returned leads to the end of the innermost call and does nothing on its way there.

## Main definitions

* `Function.Yields`: the value of a call whose body has come to an end
* `Config.Governed`: what holds at every moment of a run
* `Config.Call`: a call of a run
* `Call.Open`, `Call.EndsAt`: when it is open, and where it ends
* `Control.returned?`: the value that is returned next

## Main results

* `Config.exists_ends`: a call ends when its body does
* `Call.open_or_ended`: a call is open until it has ended
* `Call.exists_of_open`: what is open is a call of the run
* `Call.exists_of_returned`: a return ends the innermost call
-/

namespace Lox

/-- The value of a call whose body has come to an end: for an initializer the receiver, with no
value returned but nil, and for another function what the body comes to. -/
def Function.Yields (fn : Function) (σ : Store) (completion : Completion) (v : Value) : Prop :=
  if fn.isInitializer then
    completion.value = .nil ∧ σ.binding? fn.closure Keyword.thisWord.text = some v
  else completion.value = v

/-- The value that is returned next, and what waits for the end of the statement. -/
def Control.returned? : Control → Option (Value × StmtCont)
  | .execute (.return _ none) k => some (.nil, k)
  | .deliver v (.return k) => some (v, k)
  | _ => none

/-- What an initializer may come to. -/
theorem Completion.Within.value_eq_nil {completion : Completion} (h : completion.Within .bare) :
    completion.value = .nil := by
  cases completion with
  | normal => rfl
  | returned v => exact h

/-- The call of an initializer yields the receiver. -/
theorem State.Called.receiver {σ : Store} {fn : Function} {result : CallResult}
    (h : Called σ fn result) (hinit : fn.isInitializer) :
    result = .receiver fn.closure ∨ ∃ i, result = .constructed i := by
  cases h with
  | function => exact .inl (if_pos hinit)
  | initializer => exact .inr ⟨_, rfl⟩

/-- A call whose receiver is there has a value. -/
theorem CallResult.Fits.callValue {st : State} {K : Site → Prop} {O : List Origin}
    {result : CallResult} (h : result.Fits (st.world K O)) (completion : Completion) :
    ∃ v, st.callValue result completion = .ok v := by
  cases result with
  | returned =>
    cases completion with
    | normal => exact ⟨.nil, rfl⟩
    | returned v => exact ⟨v, rfl⟩
  | receiver closure =>
    obtain ⟨v, hv, -⟩ := Store.valueIn_of_holds h
    exact ⟨v, hv⟩
  | constructed i => exact ⟨.instance i, rfl⟩

namespace Config

/-- A step begins a call of a function. -/
structure Begins (c d : Config) (fn : Function) (a : Activation) : Prop where
  /-- The last argument is known. -/
  made : c.control.made? = some a.rest
  /-- The caller comes back to where it is. -/
  caller : a.caller = c.state.environment
  /-- The function that is called. -/
  called : State.Called c.state.store fn a.result
  /-- A new instance is the receiver of the initializer of its class. -/
  receiver : ∀ i, a.result = .constructed i →
    d.state.store.binding? fn.closure Keyword.thisWord.text = some (.instance i)
  /-- The body of the function comes next. -/
  body : d.control = .complete .normal (.seq fn.decl.body a.cont)

variable {setup : Setup} {K : Site → Prop} {O O' : List Origin} {c d e f g : Config} {n m : Nat}
  {a : Activation} {fn : Function} {completion : Completion} {v : Value} {k : StmtCont}

theorem Begins.activations (h : c.Begins d fn a) :
    d.control.activations = a :: c.control.activations := by
  rw [h.body, ← Control.activations_made h.made]
  rfl

/-- A call that is open after a step, but not before it, begins with the step. -/
theorem exists_begins {event : Option Event} (h : c.step setup = .next d event)
    (hopen : d.control.activations = a :: c.control.activations) : ∃ fn, c.Begins d fn a := by
  cases turn_step h with
  | stays hsame => exact absurd (hsame.symm.trans hopen) (List.cons_ne_self _ _).symm
  | @begins fn arguments b st hmade hcaller hcalled hst hthis hd =>
    have hbegins : c.Begins d fn b := by
      refine ⟨hmade, hcaller, hcalled, fun i hi => ?_, by rw [hd]⟩
      -- the parameters are set in an environment of their own
      have hbinding := hthis i hi
      have hhas : st.store.Has fn.closure :=
        Store.has_of_holds (Option.isSome_iff_exists.2 ⟨_, hbinding⟩)
      obtain ⟨-, hsame⟩ := State.spares_enterFunction st fn arguments fn.closure
        Keyword.thisWord.text hhas List.not_mem_nil
      rw [hd]
      exact hsame.trans hbinding
    obtain ⟨rfl, -⟩ := List.cons.inj (hbegins.activations.symm.trans hopen)
    exact ⟨fn, hbegins⟩
  | @ends completion b v hends =>
    have hlength := congrArg List.length (hends.activations.trans (congrArg _ hopen))
    simp only [List.length_cons] at hlength
    omega

/-! ## What holds at every moment -/

/-- What holds at every moment of a run of programs in which nothing is reported. -/
structure Governed (c : Config) (setup : Setup) (K : Site → Prop) (O : List Origin) : Prop where
  /-- The world is sound. -/
  fits : c.Fits K O
  /-- The distances are those that were resolved. -/
  surveyed : Surveyed setup.locals K
  /-- The functions belong to the programs. -/
  declared : c.state.store.Declared K
  /-- What is left to do stands where the returns of its call are allowed. -/
  ruled : c.control.Ruled K

theorem Governed.after (h : c.Governed setup K O) (hd : c.after? setup n = some d) :
    d.Governed setup K (O ++ c.openedWithin setup n) where
  fits := fits_after h.fits h.surveyed hd
  surveyed := h.surveyed
  declared := declared_after h.fits h.surveyed h.declared hd
  ruled := by
    refine ruled_after h.surveyed (fun m e he => ?_) h.ruled hd
    exact declared_after h.fits h.surveyed h.declared he

/-- Outside of calls nothing returns. -/
theorem Governed.eq_normal (h : c.Governed setup K O) (hc : c.control = .complete completion k)
    (hk : k.activations = []) : completion = .normal := by
  have hruled := h.ruled
  rw [hc] at hruled
  obtain ⟨hwithin, -⟩ := hruled
  cases completion with
  | normal => rfl
  | returned v =>
    rw [StmtCont.returns, hk] at hwithin
    exact hwithin.elim

/-- The receiver of a call whose body has come to an end is there. -/
theorem Governed.result (h : c.Governed setup K O) (hc : c.control = .complete completion a.cont) :
    a.result.Fits (c.state.world K O) := by
  have hfits := h.fits.control
  rw [hc] at hfits
  cases hfits with
  | complete _ _ hk => exact hk.1

/-- The end of the body of a function is one that the function allows. -/
theorem Governed.within (h : c.Governed setup K O)
    (hc : c.control = .complete completion a.cont) : completion.Within a.result.returns := by
  have hruled := h.ruled
  rw [hc] at hruled
  exact hruled.1

/-- A call ends when its body does. -/
theorem exists_ends (h : c.Governed setup K O) (hc : c.control = .complete completion a.cont) :
    ∃ d v, c.step setup = .next d none ∧ c.Ends d a completion v := by
  obtain ⟨v, hv⟩ := (h.result hc).callValue completion
  refine ⟨⟨.deliver v a.rest, c.state.leaveFunction a.caller⟩, v, ?_, hc, hv, rfl⟩
  obtain ⟨control, st⟩ := c
  obtain rfl : control = .complete completion a.cont := hc
  show Progress.deliverOr (st.leaveFunction a.caller) (st.callValue a.result completion) a.rest = _
  rw [hv]
  rfl

/-- The receiver of an initializer is there when its body begins. -/
theorem Begins.has_closure (h : c.Begins d fn a) (hd : d.Governed setup K O)
    (hresult : a.result = .receiver fn.closure) : d.state.store.Has fn.closure := by
  have hfits := hd.fits.control
  rw [h.body] at hfits
  cases hfits with
  | complete _ _ hk =>
    obtain ⟨-, -, hreceiver, -⟩ := hk
    rw [hresult] at hreceiver
    exact Store.has_of_holds hreceiver

/-- The value of a call that ends. -/
theorem Begins.yields (h : c.Begins d fn a) (hc : c.Governed setup K O)
    (hd : d.Governed setup K O') (hf : d.after? setup n = some f)
    (hends : f.Ends g a completion v) : fn.Yields d.state.store completion v := by
  have hlast := hd.after hf
  have hwithin := hlast.within hends.body
  have hvalue := hends.value
  have hreturns := h.called.returns hc.declared
  unfold Function.Yields
  unfold Function.returns at hreturns
  by_cases hinit : fn.isInitializer
  · rw [if_pos hinit] at hreturns ⊢
    rw [hreturns] at hwithin
    refine ⟨hwithin.value_eq_nil, ?_⟩
    -- an initializer was called as a method of its receiver, or by the class for a new instance
    rcases h.called.receiver hinit with hresult | ⟨i, hresult⟩
    · -- what the word stands for at the end it has stood for from the start
      have hreceiver := hlast.result hends.body
      rw [hresult] at hreceiver hvalue
      obtain ⟨w, hw, hbinding⟩ := Store.valueIn_of_holds hreceiver
      obtain rfl : w = v := Except.ok.inj (hw.symm.trans hvalue)
      rw [← hbinding]
      exact (binding?_word hd.fits hd.surveyed hf (h.has_closure hd hresult) .thisWord).symm
    · rw [hresult] at hvalue
      cases hvalue
      exact h.receiver i hresult
  · rw [if_neg hinit] at hreturns ⊢
    cases hresult : a.result with
    | returned =>
      rw [hresult] at hvalue
      cases completion <;> exact Except.ok.inj hvalue
    | receiver | constructed =>
      rw [hresult] at hreturns
      cases hreturns

end Config

/-! ## Calls of a run -/

/-- A call of a run. -/
structure Call (setup : Setup) (c : Config) where
  /-- The number of steps before it begins. -/
  start : Nat
  /-- The moment before it begins. -/
  before : Config
  /-- The moment at which its body begins. -/
  first : Config
  /-- The function that is called. -/
  fn : Function
  /-- What waits for the call. -/
  activation : Activation
  /-- The run leads to the call. -/
  reached : c.after? setup start = some before
  /-- The next step begins it. -/
  next : c.after? setup (start + 1) = some first
  /-- It begins. -/
  begins : before.Begins first fn activation

namespace Call

variable {setup : Setup} {K : Site → Prop} {O : List Origin} {c d : Config} {n : Nat}
  {a : Activation} {inner outer : List Activation} {completion : Completion} {v : Value}
  {k : StmtCont}

/-- The call with the calls that were open before it. -/
def stack (x : Call setup c) : List Activation := x.activation :: x.before.control.activations

/-- The call has begun before a moment, and has not ended since. -/
def Open (x : Call setup c) (n : Nat) : Prop :=
  x.start < n ∧ ∀ i, x.start < i → i ≤ n → ∀ d, c.after? setup i = some d →
    ∃ inner, d.control.activations = inner ++ x.stack

/-- At a moment the body of the function has come to an end, and with the next step the caller goes
on with the value of the call. -/
def EndsAt (x : Call setup c) (n : Nat) (completion : Completion) : Prop :=
  ∃ d e v, c.after? setup n = some d ∧ c.after? setup (n + 1) = some e ∧
    d.control = .complete completion x.activation.cont ∧ d.control.activations = x.stack ∧
    x.fn.Yields x.first.state.store completion v ∧
    e.control = .deliver v x.activation.rest ∧
    e.control.activations = x.before.control.activations ∧
    e.state.environment = x.before.state.environment

theorem after?_first (x : Call setup c) (n : Nat) :
    c.after? setup (x.start + 1 + n) = x.first.after? setup n :=
  Config.after?_add x.next n

/-- A call whose body has come to an end ends. -/
theorem endsAt (hc : c.Governed setup K O) (x : Call setup c) (hn : x.start < n)
    (hd : c.after? setup n = some d) (hcontrol : d.control = .complete completion x.activation.cont)
    (hstack : d.control.activations = x.stack) : x.EndsAt n completion := by
  obtain ⟨j, rfl⟩ := Nat.exists_eq_add_of_le (Nat.succ_le_of_lt hn)
  obtain ⟨e, v, hnext, hends⟩ := Config.exists_ends (hc.after hd) hcontrol
  have hlast : x.first.after? setup j = some d := by rw [← x.after?_first, hd]
  refine ⟨d, e, v, hd, Config.after?_succ hd hnext, hcontrol, hstack, ?_, ?_, ?_, ?_⟩
  · exact x.begins.yields (hc.after x.reached) (hc.after x.next) hlast hends
  · rw [hends.after]
  · exact (List.cons.inj (hends.activations.symm.trans hstack)).2
  · rw [hends.after, ← x.begins.caller]
    rfl

/-- A call is open until it has ended. -/
theorem open_or_ended (hc : c.Governed setup K O) (x : Call setup c) (hn : x.start < n) :
    x.Open n ∨ ∃ j completion, x.start < j ∧ j < n ∧ x.EndsAt j completion := by
  by_cases hended : ∃ j completion, x.start < j ∧ j < n ∧ x.EndsAt j completion
  · exact .inr hended
  -- otherwise it is open at every moment up to this one
  refine .inl ⟨hn, fun i hi hin d hd => ?_⟩
  obtain ⟨i, rfl⟩ := Nat.exists_eq_add_of_le (Nat.succ_le_of_lt hi)
  rw [x.after?_first] at hd
  have hbegun : x.first.control.activations = [] ++ x.stack := x.begins.activations
  rcases Config.open_or_ended hbegun hd with hopen |
    ⟨j, f, g, completion, v, hj, hf, -, hactivations, hends⟩
  · exact hopen
  · rw [← x.after?_first] at hf
    have hstart : x.start < x.start + 1 + j := by omega
    have hends := x.endsAt hc hstart hf hends.body hactivations
    exact absurd ⟨_, completion, hstart, by omega, hends⟩ hended

/-- What is open at a moment is a call of the run. -/
theorem exists_of_open (hc : c.control.activations = []) (hd : c.after? setup n = some d)
    (hopen : d.control.activations = inner ++ a :: outer) :
    ∃ x : Call setup c, x.stack = a :: outer ∧ x.Open n := by
  obtain ⟨m, b, e, event, hm, hb, hnext, hbefore, hbegun, hbetween⟩ :=
    Config.exists_begin hc hd hopen
  subst hbefore
  obtain ⟨fn, hbegins⟩ := Config.exists_begins hnext hbegun
  exact ⟨⟨m, b, e, fn, a, hb, Config.after?_succ hb hnext, hbegins⟩, rfl, hm, hbetween⟩

/-- What a return does. -/
theorem step_of_returned (setup : Setup) (h : d.control.returned? = some (v, k)) :
    d.step setup = .next ⟨.complete (.returned v) k, d.state⟩ none ∧
      k.activations = d.control.activations := by
  obtain ⟨control, st⟩ := d
  change control.returned? = some (v, k) at h
  unfold Control.returned? at h
  split at h
  · cases h
    exact ⟨rfl, rfl⟩
  · cases h
    exact ⟨rfl, rfl⟩
  · cases h

/-- A return ends the innermost call, and nothing is done before. -/
theorem exists_of_returned (hc : c.Governed setup K O) (hstart : c.control.activations = [])
    (hd : c.after? setup n = some d) (h : d.control.returned? = some (v, k)) :
    ∃ x : Call setup c, x.Open n ∧ d.control.activations = x.stack ∧
      ∃ j, n < j ∧ x.EndsAt j (.returned v) ∧
        ∀ i, n < i → i ≤ j → ∃ e k, c.after? setup i = some e ∧
          e.control = .complete (.returned v) k := by
  obtain ⟨hnext, hactivations⟩ := step_of_returned setup h
  have hreturned := Config.after?_succ hd hnext
  -- the value is returned inside of a call
  have hsome : k.activations ≠ [] := by
    intro hnone
    cases (hc.after hreturned).eq_normal rfl hnone
  obtain ⟨a, outer, hk⟩ := List.exists_cons_of_ne_nil hsome
  have hinnermost : d.control.activations = [] ++ a :: outer := hactivations ▸ hk
  obtain ⟨x, hx, hopen⟩ := exists_of_open hstart hd hinnermost
  obtain ⟨rfl, -⟩ := List.cons.inj hx
  obtain ⟨j, f, hf, hcontrol, hstack, -, hbetween⟩ := Config.unwinds setup v k d.state hk
  rw [← Config.after?_add hreturned] at hf
  refine ⟨x, hopen, hinnermost.trans hx.symm, n + 1 + j, by omega, ?_, fun i hi hij => ?_⟩
  · exact x.endsAt hc (Nat.lt_of_lt_of_le hopen.1 (by omega)) hf hcontrol (hstack.trans hx.symm)
  · obtain ⟨i, rfl⟩ := Nat.exists_eq_add_of_le (Nat.succ_le_of_lt hi)
    obtain ⟨e, k', he, hk'⟩ := hbetween i (by omega)
    exact ⟨e, k', by rw [← he]; exact Config.after?_add hreturned i, hk'⟩

end Call

end Lox
