import Lox.Machine.Step

/-!
# Runs of the evaluator

A run steps from a configuration until the machine halts, and keeps what could be seen on the
way. It is given a number of steps; a run that needs more stops where it is and says so.

## Main definitions

* `Run`: what a run came to
* `Config.run`: at most a number of steps
* `Progress.run`: the same from what a step leads to
* `Config.Steps`: one configuration reached from another
* `Config.Halts`: a configuration that halts is reached

## Main results

* `Config.halts_of_runFrom`: a run that halts has reached a configuration that halts
-/

namespace Lox

/-- What a run came to. -/
structure Run where
  /-- How it halted, unless it needs more steps. -/
  halt : Option Halt
  /-- The state at the end. -/
  state : State
  /-- What could be seen, the latest first. -/
  recent : Transcript

namespace Run

/-- What could be seen, in order. -/
def transcript (r : Run) : Transcript := r.recent.reverse

end Run

namespace Config

/-- What could be seen with the event of one more step. -/
def record (recent : Transcript) : Option Event → Transcript
  | none => recent
  | some event => event :: recent

/-- At most a number of steps, after what could be seen before. -/
def runFrom (setup : Setup) : Nat → Config → Transcript → Run
  | 0, c, recent => ⟨none, c.state, recent⟩
  | n + 1, c, recent =>
    match c.step setup with
    | .next c event => runFrom setup n c (record recent event)
    | .halt h st => ⟨some h, st, recent⟩

/-- At most a number of steps. -/
def run (setup : Setup) (n : Nat) (c : Config) : Run := runFrom setup n c []

/-- One configuration reached from another, and what could be seen in between. -/
inductive Steps (setup : Setup) : Config → Transcript → Config → Prop where
  | refl (c : Config) : Steps setup c [] c
  | step {a b c : Config} {event : Option Event} {t : Transcript}
      (first : a.step setup = .next b event) (rest : Steps setup b t c) :
      Steps setup a (event.toList ++ t) c

/-- A configuration halts: its run reaches one that halts. -/
def Halts (setup : Setup) (c : Config) (t : Transcript) (h : Halt) (st : State) : Prop :=
  ∃ last, Steps setup c t last ∧ last.step setup = .halt h st

/-! ## Runs and steps -/

theorem runFrom_next {setup : Setup} {c d : Config} {event : Option Event}
    (h : c.step setup = .next d event) (n : Nat) (recent : Transcript) :
    runFrom setup (n + 1) c recent = runFrom setup n d (record recent event) := by
  simp [runFrom, h]

theorem runFrom_halt {setup : Setup} {c : Config} {halt : Halt} {st : State}
    (h : c.step setup = .halt halt st) (n : Nat) (recent : Transcript) :
    runFrom setup (n + 1) c recent = ⟨some halt, st, recent⟩ := by
  simp [runFrom, h]

@[simp] theorem reverse_record (recent : Transcript) (event : Option Event) :
    (record recent event).reverse = recent.reverse ++ event.toList := by
  cases event <;> simp [record]

/-- A run that halts has reached a configuration that halts. -/
theorem halts_of_runFrom {setup : Setup} {n : Nat} {c : Config} {recent : Transcript}
    {halt : Halt} (h : (runFrom setup n c recent).halt = some halt) :
    ∃ t, Halts setup c t halt (runFrom setup n c recent).state ∧
      (runFrom setup n c recent).transcript = recent.reverse ++ t := by
  induction n generalizing c recent with
  | zero => simp [runFrom] at h
  | succ n ih =>
    cases hs : c.step setup with
    | next d event =>
      rw [runFrom_next hs] at h ⊢
      obtain ⟨t, ⟨last, steps, hlast⟩, ht⟩ := ih h
      exact ⟨event.toList ++ t, ⟨last, .step hs steps, hlast⟩, by simp [ht]⟩
    | halt found st =>
      rw [runFrom_halt hs] at h ⊢
      cases h
      exact ⟨[], ⟨c, .refl c, hs⟩, by simp [Run.transcript]⟩

end Config

namespace Progress

/-- What a step leads to, followed for at most a number of steps. -/
def run (setup : Setup) (n : Nat) : Progress → Run
  | .next c event => c.runFrom setup n (Config.record [] event)
  | .halt h st => ⟨some h, st, []⟩

end Progress

end Lox
