import Lox.Proofs.Machine.Growth
import Lox.Proofs.Machine.Steps

/-!
# Moments of a run

A run goes through one configuration after another. The environments that a step makes are
recorded with what they were made for, so at every moment of a run that starts in a sound world
the world is known. At each of them what is looked up next by a recorded distance is there.

## Main definitions

* `Config.opened`, `Config.openedWithin`: what steps make environments for
* `Config.after?`: the configuration at a moment of a run
* `Config.Safe`: nothing that is looked up next is missing
* `Control.read?`, `Control.assigned?`, `Control.superUse?`: what is looked up next

## Main results

* `Config.fits_after`, `Config.fits_run`: every moment and the end of a run in a sound world
* `Config.Fits.safe`: what is looked up next in a sound world is there
* `Config.invariant_after`: from steps to moments
* `Config.exists_moment`, `Config.state_run`: the moment at which a run ends
-/

namespace Lox

/-! ## What is looked up next -/

namespace Control

/-- The variable that is read next. -/
def read? : Control → Option (Ref Occurrence)
  | .evaluate (.variable ref) _ => some ref
  | _ => none

/-- The variable that is assigned next. -/
def assigned? : Control → Option (Ref Occurrence)
  | .deliver _ (.assign ref _) => some ref
  | _ => none

/-- The use of `super` that is evaluated next, with the name of the method. -/
def superUse? : Control → Option (Ref Occurrence × Token)
  | .evaluate (.super ref method) _ => some (ref, method)
  | _ => none

variable {c : Control} {ref : Ref Occurrence} {method : Token}

theorem eq_of_read? (h : c.read? = some ref) : ∃ k, c = .evaluate (.variable ref) k := by
  unfold read? at h
  split at h
  · cases h
    exact ⟨_, rfl⟩
  · cases h

theorem eq_of_assigned? (h : c.assigned? = some ref) : ∃ v k, c = .deliver v (.assign ref k) := by
  unfold assigned? at h
  split at h
  · cases h
    exact ⟨_, _, rfl⟩
  · cases h

theorem eq_of_superUse? (h : c.superUse? = some (ref, method)) :
    ∃ k, c = .evaluate (.super ref method) k := by
  unfold superUse? at h
  split at h
  · cases h
    exact ⟨_, rfl⟩
  · cases h

end Control

/-! ## Moments -/

namespace Config

/-- What a step makes environments for, in order. -/
def opened (setup : Setup) (c : Config) : List Origin :=
  (c.mayOpen setup).take
    ((c.step setup).state.store.environments.size - c.state.store.environments.size)

/-- What at most a number of steps make environments for, in order. -/
def openedWithin (setup : Setup) : Nat → Config → List Origin
  | 0, _ => []
  | n + 1, c =>
    c.opened setup ++ match c.step setup with
      | .next d _ => d.openedWithin setup n
      | .halt .. => []

/-- The configuration after a number of steps, if the run lasts as long. -/
def after? (setup : Setup) : Nat → Config → Option Config
  | 0, c => some c
  | n + 1, c =>
    match c.step setup with
    | .next d _ => d.after? setup n
    | .halt .. => none

variable {setup : Setup} {c d e : Config} {m n : Nat}

theorem after?_next {event : Option Event} (h : c.step setup = .next d event) (n : Nat) :
    c.after? setup (n + 1) = d.after? setup n := by
  simp [after?, h]

/-- The first step of a run that lasts. -/
theorem exists_next_of_after? (h : c.after? setup (n + 1) = some e) :
    ∃ d event, c.step setup = .next d event ∧ d.after? setup n = some e := by
  cases hs : c.step setup with
  | next d event => exact ⟨d, event, rfl, by rwa [after?_next hs] at h⟩
  | halt halt st => simp [after?, hs] at h

/-- Moments are reached by steps. -/
theorem steps_of_after? (h : c.after? setup n = some d) : ∃ t, Steps setup c t d := by
  induction n generalizing c with
  | zero =>
    cases h
    exact ⟨[], .refl _⟩
  | succ n ih =>
    obtain ⟨c', event, hs, h⟩ := exists_next_of_after? h
    obtain ⟨t, ht⟩ := ih h
    exact ⟨_, .step hs ht⟩

theorem after?_add (h : c.after? setup m = some d) (n : Nat) :
    c.after? setup (m + n) = d.after? setup n := by
  induction m generalizing c with
  | zero =>
    cases h
    rw [Nat.zero_add]
  | succ m ih =>
    obtain ⟨c', event, hnext, h⟩ := exists_next_of_after? h
    rw [Nat.add_right_comm, after?_next hnext, ih h]

theorem after?_succ (hd : c.after? setup n = some d) {event : Option Event}
    (h : d.step setup = .next e event) : c.after? setup (n + 1) = some e := by
  rw [after?_add hd, after?_next h]
  rfl

/-- The last step before a moment. -/
theorem exists_last_of_after? (h : c.after? setup (n + 1) = some e) :
    ∃ d event, c.after? setup n = some d ∧ d.step setup = .next e event := by
  induction n generalizing c with
  | zero =>
    obtain ⟨d, event, hnext, h⟩ := exists_next_of_after? h
    cases h
    exact ⟨c, event, rfl, hnext⟩
  | succ n ih =>
    obtain ⟨c', event, hnext, h⟩ := exists_next_of_after? h
    obtain ⟨d, last, hd, hlast⟩ := ih h
    exact ⟨d, last, by rw [after?_next hnext, hd], hlast⟩

/-- What every step of a run keeps holds at every moment. -/
theorem invariant_after {P : Config → Prop} (hc : P c)
    (hstep : ∀ m d, c.after? setup m = some d → P d → ∀ e event,
      d.step setup = .next e event → P e)
    (hd : c.after? setup n = some d) : P d := by
  induction n generalizing d with
  | zero =>
    cases hd
    exact hc
  | succ n ih =>
    obtain ⟨b, event, hb, hlast⟩ := exists_last_of_after? hd
    exact hstep n b hb (ih hb) d event hlast

/-- The moment at which a run ends. -/
theorem exists_moment (setup : Setup) (n : Nat) (c : Config) (recent : Transcript) :
    ∃ m d t, m ≤ n ∧ c.after? setup m = some d ∧ Steps setup c t d ∧
      (runFrom setup n c recent = ⟨none, d.state, t.reverse ++ recent⟩ ∨
        ∃ h st, d.step setup = .halt h st ∧
          runFrom setup n c recent = ⟨some h, st, t.reverse ++ recent⟩) := by
  induction n generalizing c recent with
  | zero => exact ⟨0, c, [], Nat.le_refl _, rfl, .refl c, .inl rfl⟩
  | succ n ih =>
    cases hs : c.step setup with
    | next c' event =>
      obtain ⟨m, d, t, hm, hd, ht, hrun⟩ := ih c' (record recent event)
      have hseen : t.reverse ++ record recent event = (event.toList ++ t).reverse ++ recent := by
        cases event <;> simp [record]
      rw [hseen] at hrun
      refine ⟨m + 1, d, event.toList ++ t, by omega, ?_, .step hs ht, ?_⟩
      · rw [after?_next hs, hd]
      · rwa [runFrom_next hs]
    | halt halt st =>
      exact ⟨0, c, [], Nat.zero_le _, rfl, .refl c, .inr ⟨halt, st, hs, runFrom_halt hs n recent⟩⟩

/-- A run ends in the state of a moment or in the one that the step after it leads to. -/
theorem state_run {Q : State → Prop}
    (h : ∀ m d, c.after? setup m = some d → Q d.state ∧ Q (d.step setup).state) (n : Nat) :
    Q (c.run setup n).state := by
  obtain ⟨m, d, t, -, hd, -, hrun⟩ := exists_moment setup n c []
  obtain ⟨hmoment, hlast⟩ := h m d hd
  rcases hrun with hrun | ⟨halt, st, hhalt, hrun⟩
  · rw [run, hrun]
    exact hmoment
  · rw [hhalt] at hlast
    rw [run, hrun]
    exact hlast

end Config

/-! ## Moments in sound worlds -/

theorem Progress.Fits.sound {p : Progress} {K : Site → Prop} {O : List Origin} (h : p.Fits K O) :
    (p.state.world K O).Sound := by
  cases p with
  | next c event => exact Config.Fits.sound h
  | halt halt st => exact h.2

namespace Config

variable {setup : Setup} {K : Site → Prop} {O : List Origin} {c d : Config} {n : Nat}

/-- A step in a sound world makes environments for what is recorded of it. -/
theorem fits_opened (h : c.Fits K O) (hs : Surveyed setup.locals K) :
    (c.step setup).Fits K (O ++ c.opened setup) := by
  obtain ⟨n, hn, hfits⟩ := fits_step h hs
  have hbefore : O.length = c.state.store.environments.size := h.sound.length
  have hafter : (O ++ (c.mayOpen setup).take n).length =
      (c.step setup).state.store.environments.size := hfits.sound.length
  rw [List.length_append, List.length_take, Nat.min_eq_left hn] at hafter
  rwa [opened, ← hafter, ← hbefore, Nat.add_sub_cancel_left]

/-- Every moment of a run that starts in a sound world. -/
theorem fits_after (h : c.Fits K O) (hs : Surveyed setup.locals K)
    (hd : c.after? setup n = some d) : d.Fits K (O ++ c.openedWithin setup n) := by
  induction n generalizing c O with
  | zero =>
    cases hd
    simpa [openedWithin] using h
  | succ n ih =>
    obtain ⟨c', event, hstep, hd⟩ := exists_next_of_after? hd
    have hnext := fits_opened h hs
    rw [hstep] at hnext
    have hfits := ih hnext hd
    simpa only [openedWithin, hstep, List.append_assoc] using hfits

/-- The end of a run that starts in a sound world. -/
theorem fits_run (h : c.Fits K O) (hs : Surveyed setup.locals K) (n : Nat) (recent : Transcript) :
    ((runFrom setup n c recent).state.world K (O ++ c.openedWithin setup n)).Sound ∧
      ∀ halt ∈ (runFrom setup n c recent).halt, halt.Legal := by
  induction n generalizing c O recent with
  | zero =>
    refine ⟨?_, by simp [runFrom]⟩
    simpa [runFrom, openedWithin] using h.sound
  | succ n ih =>
    have hnext := fits_opened h hs
    cases hstep : c.step setup with
    | next d event =>
      rw [hstep] at hnext
      have hrun := ih hnext (record recent event)
      rw [List.append_assoc] at hrun
      simpa only [openedWithin, hstep, runFrom_next hstep] using hrun
    | halt halt st =>
      rw [hstep] at hnext
      simp only [openedWithin, hstep, runFrom_halt hstep, List.append_nil]
      refine ⟨hnext.2, ?_⟩
      rintro halt' h
      cases h
      exact hnext.1

end Config

/-! ## What is looked up next -/

/-- A distance leads from an environment to one that holds a name. -/
def Store.Finds (σ : Store) (e : EnvId) (d : Nat) (name : String) : Prop :=
  ∃ a v, σ.ancestor e d = .ok a ∧ σ.binding? a name = some v

/-- What is done next finds what it looks up by a recorded distance. -/
def Control.Safe (setup : Setup) (st : State) : Control → Prop
  | .evaluate (.variable r) _ | .evaluate (.this r) _ =>
    ∀ d ∈ setup.locals.distance? r.mark, st.store.Finds st.environment d r.token.lexeme
  | .evaluate (.super r _) _ =>
    ∃ d cls, setup.locals.distance? r.mark = some (d + 1) ∧
      st.store.getAt st.environment (d + 1) Keyword.superWord.text = .ok (.class cls) ∧
      st.store.Finds st.environment d Keyword.thisWord.text
  | .deliver _ (.assign r _) =>
    ∀ d ∈ setup.locals.distance? r.mark, ∃ a, st.store.ancestor st.environment d = .ok a
  | .complete _ (.activation _ (.receiver closure) _) =>
    st.store.holds closure Keyword.thisWord.text
  | _ => True

/-- What is done next finds what it looks up. If it is a call, there are as many arguments as
parameters, and an initializer has a receiver. -/
def Config.Safe (setup : Setup) (c : Config) : Prop :=
  c.control.Safe setup c.state ∧ ∀ fn arguments, .call fn arguments ∈ c.opened setup →
    arguments.length = fn.decl.params.length ∧
      (fn.isInitializer →
        (c.step setup).state.store.holds fn.closure Keyword.thisWord.text)

namespace World.Mirrors

variable {w : World} {e : EnvId} {scopes : List Scope} {os : List Opener} {name : String} {d : Nat}

theorem finds (h : w.Mirrors e scopes os)
    (hfind : (scopes[d]?).bind (·.find? name) = some true) : w.store.Finds e d name := by
  obtain ⟨a, v, ha, hv, -⟩ := h.getAt hfind
  exact ⟨a, v, ha, hv⟩

end World.Mirrors

namespace State

variable {st : State} {setup : Setup} {K : Site → Prop} {O : List Origin} {c : Context}
  {os : List Opener}

theorem safe_evaluate {e : ExprCode} {k : ValueCont} (h : (st.world K O).Sound)
    (hs : Surveyed setup.locals K) (hsite : K ⟨c, os, .expression e⟩)
    (hm : (st.world K O).Mirrors st.environment c.scopes os) :
    (Control.evaluate e k).Safe setup st := by
  cases e with
  | «variable» r => exact fun d hd => hm.finds (hs.find?_variable hsite hd)
  | this r => exact fun d hd => hm.finds (hs.find?_this hsite hd)
  | super r method =>
    obtain ⟨d, hd, hsuper, hthis⟩ := hs.find?_super hsite
    obtain ⟨a, v, -, hbinding, hget⟩ := hm.getAt hsuper
    obtain ⟨cls, rfl⟩ := h.super hbinding
    exact ⟨d, cls, hd, hget, hm.finds hthis⟩
  | _ => trivial

theorem safe_deliver {v : Value} {k : ValueCont} (hs : Surveyed setup.locals K)
    (hm : (st.world K O).Mirrors st.environment c.scopes os) (hk : k.Fits (st.world K O) c os) :
    (Control.deliver v k).Safe setup st := by
  cases k with
  | assign r k =>
    obtain ⟨⟨value, hsite⟩, -⟩ := hk
    intro d hd
    obtain ⟨a, ha, -⟩ := hm.ancestor (hs.names_assign hsite hd).1
    exact ⟨a, ha⟩
  | _ => trivial

theorem safe_complete {completion : Completion} {k : StmtCont}
    (hk : k.Fits (st.world K O) c os) : (Control.complete completion k).Safe setup st := by
  cases k with
  | activation caller result k =>
    cases result with
    | receiver closure => exact hk.1
    | _ => trivial
  | _ => trivial

end State

/-- What is looked up next in a sound world is there. -/
theorem Config.Fits.safe {c : Config} {setup : Setup} {K : Site → Prop} {O : List Origin}
    (h : c.Fits K O) (hs : Surveyed setup.locals K) : c.Safe setup := by
  refine ⟨?_, fun fn arguments hmem => ?_⟩
  · obtain ⟨control, st⟩ := c
    obtain ⟨hsound, hcontrol⟩ := h
    cases hcontrol with
    | evaluate hsite hm _ => exact State.safe_evaluate hsound hs hsite hm
    | superclass hsite hm _ => exact fun d hd => hm.finds (hs.find?_superclass hsite hd)
    | execute => trivial
    | deliver hm _ hk => exact State.safe_deliver hs hm hk
    | complete _ _ hk => exact State.safe_complete hk
  · exact (Config.fits_opened h hs).sound.met _ (List.mem_append_right _ hmem)

end Lox
