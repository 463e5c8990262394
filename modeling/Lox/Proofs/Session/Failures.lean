import Lox.Proofs.Machine.Globals
import Lox.Proofs.Session.Scoping

/-!
# Declarations that are cut off

A declaration at the top level may be cut off while its initializer is evaluated or its superclass
is looked up, at any depth of calls. It then declares nothing: the globals have the names that they
had before, and a name that was undefined stays undefined. Only the name of a variable is there from
before its initializer on, so that reading a new variable in its own initializer gives nil, and it
stays there.

## Main definitions

* `Store.Undefined`: reading a global variable of a name is an error

## Main results

* `Executes.holds_globals`: the globals after a declaration that is cut off
* `Session.declaration_cut_off`: the same for the texts of a session, and what later reads see
-/

namespace Lox

/-- Wherever a variable of this name is looked up among the globals of the store, that is an
error. -/
def Store.Undefined (σ : Store) (name : String) : Prop :=
  ∀ (setup : Setup) (st : State) (ref : Ref Occurrence) (k : ValueCont), st.store = σ →
    setup.locals.distance? ref.mark = none → ref.token.lexeme = name →
      (Config.mk (.evaluate (.variable ref) k) st).step setup =
        .halt (.aborted (.atToken ref.token (.undefinedVariable name))) st

/-- A name that the globals do not hold is undefined. -/
theorem World.Sound.undefined {w : World} (h : w.Sound) {name : String}
    (hname : w.store.holds Store.globals name = false) : w.store.Undefined name := by
  rintro setup st ref k hstore hd rfl
  have hchain : w.store.chain Store.globals = [Store.globals] :=
    Store.chainWithin_globals h.ordered h.has_globals
  have howner : w.store.owner? Store.globals ref.token.lexeme = none := by
    simp [Store.owner?, hchain, hname]
  have hread : st.readVariable setup ref =
      .error (.atToken ref.token (.undefinedVariable ref.token.lexeme)) := by
    simp only [State.readVariable, hd, hstore, Store.get, Store.owner, howner]
  simp only [Config.step, State.evaluate, hread, Progress.deliverOr, Progress.abort]

namespace Config

variable {setup : Setup} {K : Site → Prop} {O : List Origin} {c : Config} {t : Transcript}
  {halt : Halt} {st : State}

/-- A run that starts in a sound world ends in one. -/
theorem Halts.sound (h : c.Halts setup t halt st) (hfits : c.Fits K O)
    (hs : Surveyed setup.locals K) : ∃ O', (st.world K O').Sound := by
  obtain ⟨last, hsteps, hhalt⟩ := h
  obtain ⟨n, hn⟩ := hsteps.exists_after
  have hend := fits_opened (fits_after hfits hs hn) hs
  rw [hhalt] at hend
  exact ⟨_, hend.2⟩

/-- The variable that a configuration is about to declare as the last part of a text. -/
def lastVariable? (c : Config) : Option (Token × Option (Expr Occurrence)) :=
  match c.control with
  | .execute (.var name value) (.program []) => some (name, value)
  | _ => none

theorem eq_of_lastVariable? {name : Token} {value : Option (Expr Occurrence)}
    (h : c.lastVariable? = some (name, value)) :
    ∃ st, c = ⟨.execute (.var name value) (.program []), st⟩ := by
  obtain ⟨control, st⟩ := c
  unfold lastVariable? at h
  split at h
  · next hcontrol =>
    cases h
    exact ⟨st, congrArg (Config.mk · st) hcontrol⟩
  · cases h

/-- A run that is given enough steps halts where the configuration does. -/
theorem Halts.of_run {n : Nat} (h : c.Halts setup t halt st) (hn : (c.run setup n).halt ≠ none) :
    (c.run setup n).halt = some halt ∧ (c.run setup n).state = st := by
  obtain ⟨found, hfound⟩ := Option.ne_none_iff_exists'.1 hn
  obtain ⟨u, ⟨last, hsteps, hhalt⟩, -⟩ := halts_of_runFrom hfound
  obtain ⟨last', hsteps', hhalt'⟩ := h
  obtain ⟨-, rfl⟩ := hsteps.last_unique hhalt hsteps' hhalt'
  cases hhalt.symm.trans hhalt'
  exact ⟨hfound, rfl⟩

end Config

section Declarations

variable {setup : Setup} {K : Site → Prop} {O : List Origin} {s : Code} {rest : List Code}
  {name : Token} {st st' : State} {t : Transcript} {a : Abort}

/-- What a declaration at the top level that is cut off leaves of the names of the globals: they are
the same, but the name of a variable is there from before its initializer on. -/
theorem Executes.holds_globals (hfits : (Config.mk (.execute s (.program rest)) st).Fits K O)
    (hs : Surveyed setup.locals K) (hname : s.declared? = some name)
    (h : Executes setup s st t (.error a) st') (x : String) :
    st'.store.holds Store.globals x ↔ st.store.holds Store.globals x ∨
      x = name.lexeme ∧ ∃ initializer, s = .var name initializer := by
  have hglobals : st.environment = Store.globals := hfits.control.globals
  cases s with
  | var token initializer =>
    obtain rfl : token = name := Option.some.inj hname
    obtain ⟨value, rfl, hvalue⟩ := h.exists_initializer
    -- the initializer is evaluated at the top level, with the name of the variable there
    obtain ⟨O', hbegin⟩ : ∃ O',
        (Config.mk (.evaluate value .answer) (st.beginVar token.lexeme)).Fits K O' := by
      obtain ⟨hsound, hcontrol⟩ := Config.fits_opened hfits hs
      cases hcontrol with
      | evaluate hsite hm _ => exact ⟨_, hsound, .evaluate hsite hm trivial⟩
    rw [(sameGlobals_of_evaluates hbegin hs hvalue).holds,
      State.holds_beginVar hfits.sound.has_globals hglobals]
    simp [or_comm]
  | function decl =>
    have hends : Executes setup (.function decl) st [] (.ok .normal) (st.declareFunction decl) :=
      .of_end none fun k => rfl
    cases (h.unique hends).2.1
  | «class» token superclass statics methods =>
    rw [h.state_of_class]
    simp
  | _ => cases hname

end Declarations

namespace Session

theorem exists_of_failed {o : Options} {h : Option Halt} (hfailed : (ending o h).1 = .failed) :
    ∃ e, h = some (.aborted (.error e)) := by
  unfold ending at hfailed
  split at hfailed
  · exact ⟨_, rfl⟩
  all_goals cases hfailed

/-- Declarations at the top level that are cut off.

However deep its initializer or its superclass is cut off, a declaration leaves the globals with the
names that they had, and with its own name if it declares a variable. Every other name that was
undefined is undefined. The text ends there, and its session goes on with the objects of that
moment. -/
theorem declaration_cut_off (texts : List (Options × String)) (o : Options) (source : String)
    (r : Resolved) (hr : (ofTexts texts).accepted? source = some r) :
    let start := (ofTexts texts).launch r
    let setup := (ofTexts texts).setupFor o r
    ∀ n s rest st name t a st',
      start.after? setup n = some ⟨.execute s (.program rest), st⟩ → s.declared? = some name →
      Executes setup s st t (.error a) st' →
      (∀ x, st'.store.holds Store.globals x ↔ st.store.holds Store.globals x ∨
        x = name.lexeme ∧ ∃ initializer, s = .var name initializer) ∧
      (∀ x, st.store.holds Store.globals x = false →
        (x = name.lexeme → ∀ initializer, s ≠ .var name initializer) → st'.store.Undefined x) ∧
      (((ofTexts texts).outcome o r).halt ≠ none →
        ((ofTexts texts).run o source).1.ending = (ending o (some (.aborted a))).1 ∧
          ((ofTexts texts).run o source).2.store = st'.store) := by
  intro start setup n s rest st name t a st' hmoment hname hcut
  have hv := History.valid_ofTexts texts
  have hsession := History.session_ofTexts texts
  have hstart := hv.fits r
  have hsurveyed := hv.surveyed (hsession.symm ▸ hr) o
  rw [hsession] at hstart hsurveyed
  have hfits := Config.fits_after hstart hsurveyed hmoment
  have hholds := hcut.holds_globals hfits hsurveyed hname
  -- the run comes to the declaration and is cut off in it
  obtain ⟨u, hsteps⟩ := Config.steps_of_after? hmoment
  have hends : start.Halts setup (u ++ t) (.aborted a) st' := hsteps.halts (hcut (.program rest))
  refine ⟨hholds, fun x hbefore hother => ?_, fun hhalt => ?_⟩
  · obtain ⟨origins, hsound⟩ := hends.sound hstart hsurveyed
    refine hsound.undefined (Bool.eq_false_iff.2 fun hafter => ?_)
    rcases (hholds x).1 hafter with h | ⟨rfl, initializer, h⟩
    · rw [hbefore] at h
      cases h
    · exact hother rfl initializer h
  · obtain ⟨hend, hstate⟩ := hends.of_run hhalt
    rw [run_of_accepted hr]
    exact ⟨congrArg (fun h => (ending o h).1) hend, congrArg State.store hstate⟩

/-- An initializer that fails in a call: what the function declares is not there, and the variable
is. -/
theorem declaration_cut_off_call :
    let s := ofTexts [(Options.still, "fun f() { var y = nope; return y; }")]
    ∃ r code st name t a st', s.accepted? "var x = f();" = some r ∧
      (s.launch r).after? (s.setupFor .still r) 1 = some ⟨.execute code (.program []), st⟩ ∧
      code.declared? = some name ∧ Executes (s.setupFor .still r) code st t (.error a) st' ∧
      st'.store.Undefined "y" ∧ st'.store.holds Store.globals "x" = true ∧
      (s.run .still "var x = f();").1.ending = .failed ∧
      (s.run .still "var x = f();").2.store = st'.store := by
  intro s
  -- where the declaration starts, and how its execution ends where nothing follows
  have hmoment : (s.accepted? "var x = f();").any (fun r =>
      ((s.launch r).after? (s.setupFor .still r) 1).any fun c =>
        c.lastVariable?.any fun d => d.1.lexeme = "x" ∧
          c.state.store.holds Store.globals "y" = false ∧ (s.outcome .still r).halt.isSome ∧
          (ending .still (c.run (s.setupFor .still r) 20).halt).1 = .failed) := by
    decide +kernel
  obtain ⟨r, hr, hmoment⟩ := (Option.any_eq_true ..).1 hmoment
  obtain ⟨c, hc, hmoment⟩ := (Option.any_eq_true ..).1 hmoment
  obtain ⟨⟨name, value⟩, hvariable, hmoment⟩ := (Option.any_eq_true ..).1 hmoment
  obtain ⟨hname, hy, hsome, hfailed⟩ := of_decide_eq_true hmoment
  obtain ⟨st, rfl⟩ := Config.eq_of_lastVariable? hvariable
  obtain ⟨e, hhalt⟩ := exists_of_failed hfailed
  obtain ⟨t, hhalts, -⟩ := Config.halts_of_runFrom hhalt
  have hcut := executes_of_halts hhalts
  obtain ⟨hholds, hundefined, hafter⟩ :=
    declaration_cut_off _ .still _ r hr 1 _ _ _ name _ _ _ hc rfl hcut
  have hother : "y" = name.lexeme → ∀ initializer, Stmt.var name value ≠ .var name initializer :=
    fun h => absurd (h.trans hname) (by decide)
  obtain ⟨hending, hstore⟩ := hafter (Option.isSome_iff_ne_none.1 hsome)
  exact ⟨r, _, st, name, t, _, _, hr, hc, rfl, hcut, hundefined "y" hy hother,
    (hholds "x").2 (.inr ⟨hname.symm, value, rfl⟩), hending, hstore⟩

/-- A variable that was undefined is read as nil after its declaration has failed. -/
theorem new_variable_survives_failure :
    let s := (fresh.run .still "var x = nope;").2
    fresh.store.holds Store.globals "x" = false ∧
      (fresh.run .still "var x = nope;").1.ending = .failed ∧
      s.store.holds Store.globals "x" = true ∧
      .printed "nil" ∈ (s.run .still "print x;").1.transcript ∧
      (s.run .still "print x;").1.ending = .completed := by
  decide +kernel

end Session

end Lox
