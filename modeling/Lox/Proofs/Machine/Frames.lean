import Lox.Proofs.Machine.Changes
import Lox.Machine.Step

/-!
# Fitting continuations

A continuation fits a place of a program if what it still has to do belongs there: the
expressions and statements that it keeps stand in the same context, and the environments that it
returns to mirror the contexts that it returns to. What leaves a block or a call needs nothing
of the scopes that it leaves.

## Main definitions

* `ValueCont.Fits`, `StmtCont.Fits`: continuations that fit a context
* `Control.Fits`: what is done next fits an environment
* `Config.Fits`: a configuration in a sound world

## Main results

* `ValueCont.Fits.extend`, `StmtCont.Fits.extend`: changes of the world keep this
-/

namespace Lox

/-- Whether a continuation leaves the innermost scope. -/
def StmtCont.leaves : StmtCont → Bool
  | .leave .. | .activation .. => true
  | _ => false

/-- What a call yields needs a receiver where it is one. -/
def CallResult.Fits (w : World) : CallResult → Prop
  | .receiver closure => w.store.holds closure Keyword.thisWord.text
  | .returned | .constructed _ => True

mutual

/-- A continuation that fits a context, of which it expects a value. -/
def ValueCont.Fits (w : World) : ValueCont → Context → List Opener → Prop
  | .answer, _, _ => True
  | .assign name k, c, os =>
    (∃ value, w.sites ⟨c, os, .expression (.assign name value)⟩) ∧ k.Fits w c os
  | .binaryRight _ _ right k, c, os | .logicalRight _ right k, c, os =>
    w.sites ⟨c, os, .expression right⟩ ∧ k.Fits w c os
  | .binaryDone _ _ _ k, c, os | .unary _ _ k, c, os | .field _ k, c, os
  | .fieldValue _ _ k, c, os => k.Fits w c os
  | .choose whenTrue whenFalse k, c, os =>
    w.sites ⟨c, os, .expression whenTrue⟩ ∧ w.sites ⟨c, os, .expression whenFalse⟩ ∧ k.Fits w c os
  | .callee _ arguments k, c, os =>
    (∀ a ∈ arguments, w.sites ⟨c, os, .expression a⟩) ∧ k.Fits w c os
  | .argument _ callee done rest k, c, os =>
    callee.Fits w ∧ (∀ v ∈ done, v.Fits w) ∧ (∀ a ∈ rest, w.sites ⟨c, os, .expression a⟩) ∧
      k.Fits w c os
  | .fieldTarget _ value k, c, os => w.sites ⟨c, os, .expression value⟩ ∧ k.Fits w c os
  | .expression k, c, os | .print k, c, os | .return k, c, os => k.Fits w c os
  | .var name k, c, os =>
    ∃ outer initializer, c = outer.declare name ∧
      w.sites ⟨outer, os, .statement (.var name initializer)⟩ ∧
      k.Fits w (outer.declared (some name)) os
  | .ifThen thenBranch k, c, os =>
    (∃ condition, w.sites ⟨c, os, .statement (.ifThen condition thenBranch)⟩) ∧ k.Fits w c os
  | .ifElse thenBranch elseBranch k, c, os =>
    (∃ condition, w.sites ⟨c, os, .statement (.ifElse condition thenBranch elseBranch)⟩) ∧
      k.Fits w c os
  | .while condition body k, c, os =>
    w.sites ⟨c, os, .statement (.while condition body)⟩ ∧ k.Fits w c os
  | .inherit superclass name statics methods k, c, os =>
    (∃ r : Ref Occurrence, r.token = superclass ∧
      w.sites ⟨c, os, .statement (.class name (some r) statics methods)⟩) ∧
      k.Fits w (c.declared (some name)) os

/-- A continuation that fits a context in which a statement has ended. -/
def StmtCont.Fits (w : World) : StmtCont → Context → List Opener → Prop
  | .program rest, c, os => os = [] ∧ w.sites ⟨c, os, .body rest⟩
  | .seq rest k, c, os => w.sites ⟨c, os, .body rest⟩ ∧ k.leaves ∧ k.Fits w c os
  | .leave outer k, _, _ => ∃ c os, w.Mirrors outer c.scopes os ∧ k.Fits w c os
  | .loop condition body k, c, os =>
    w.sites ⟨c, os, .statement (.while condition body)⟩ ∧ k.Fits w c os
  | .activation caller result k, _, _ =>
    result.Fits w ∧ ∃ c os, w.Mirrors caller c.scopes os ∧ k.Fits w c os

end

section Extend

variable {w w' : World}

theorem CallResult.Fits.extend {result : CallResult} (h : result.Fits w) (hw : w.Extends w') :
    result.Fits w' := by
  cases result with
  | receiver closure => exact hw.store.names h
  | returned | constructed => trivial

mutual

theorem ValueCont.Fits.extend (hw : w.Extends w') :
    (k : ValueCont) → {c : Context} → {os : List Opener} → k.Fits w c os → k.Fits w' c os
  | .answer, _, _, _ => trivial
  | .assign _ k, _, _, h => by
    obtain ⟨⟨value, hsite⟩, hk⟩ := h
    exact ⟨⟨value, hw.sites hsite⟩, ValueCont.Fits.extend hw k hk⟩
  | .binaryRight _ _ _ k, _, _, h => ⟨hw.sites h.1, ValueCont.Fits.extend hw k h.2⟩
  | .logicalRight _ _ k, _, _, h => ⟨hw.sites h.1, ValueCont.Fits.extend hw k h.2⟩
  | .binaryDone _ _ _ k, _, _, h => ValueCont.Fits.extend hw k h
  | .unary _ _ k, _, _, h => ValueCont.Fits.extend hw k h
  | .field _ k, _, _, h => ValueCont.Fits.extend hw k h
  | .fieldValue _ _ k, _, _, h => ValueCont.Fits.extend hw k h
  | .choose _ _ k, _, _, h => ⟨hw.sites h.1, hw.sites h.2.1, ValueCont.Fits.extend hw k h.2.2⟩
  | .callee _ _ k, _, _, h => ⟨fun a ha => hw.sites (h.1 a ha), ValueCont.Fits.extend hw k h.2⟩
  | .argument _ _ _ _ k, _, _, h =>
    ⟨h.1.extend hw, fun v hv => (h.2.1 v hv).extend hw, fun a ha => hw.sites (h.2.2.1 a ha),
      ValueCont.Fits.extend hw k h.2.2.2⟩
  | .fieldTarget _ _ k, _, _, h => ⟨hw.sites h.1, ValueCont.Fits.extend hw k h.2⟩
  | .expression k, _, _, h => StmtCont.Fits.extend hw k h
  | .print k, _, _, h => StmtCont.Fits.extend hw k h
  | .return k, _, _, h => StmtCont.Fits.extend hw k h
  | .var _ k, _, _, h => by
    obtain ⟨outer, initializer, hc, hsite, hk⟩ := h
    exact ⟨outer, initializer, hc, hw.sites hsite, StmtCont.Fits.extend hw k hk⟩
  | .ifThen _ k, _, _, h => by
    obtain ⟨⟨condition, hsite⟩, hk⟩ := h
    exact ⟨⟨condition, hw.sites hsite⟩, StmtCont.Fits.extend hw k hk⟩
  | .ifElse _ _ k, _, _, h => by
    obtain ⟨⟨condition, hsite⟩, hk⟩ := h
    exact ⟨⟨condition, hw.sites hsite⟩, StmtCont.Fits.extend hw k hk⟩
  | .while _ _ k, _, _, h => ⟨hw.sites h.1, StmtCont.Fits.extend hw k h.2⟩
  | .inherit _ _ _ _ k, _, _, h => by
    obtain ⟨⟨r, hr, hsite⟩, hk⟩ := h
    exact ⟨⟨r, hr, hw.sites hsite⟩, StmtCont.Fits.extend hw k hk⟩

theorem StmtCont.Fits.extend (hw : w.Extends w') :
    (k : StmtCont) → {c : Context} → {os : List Opener} → k.Fits w c os → k.Fits w' c os
  | .program _, _, _, h => ⟨h.1, hw.sites h.2⟩
  | .seq _ k, _, _, h => ⟨hw.sites h.1, h.2.1, StmtCont.Fits.extend hw k h.2.2⟩
  | .leave _ k, _, _, h => by
    obtain ⟨c, os, hm, hk⟩ := h
    exact ⟨c, os, hm.extend hw, StmtCont.Fits.extend hw k hk⟩
  | .loop _ _ k, _, _, h => ⟨hw.sites h.1, StmtCont.Fits.extend hw k h.2⟩
  | .activation _ _ k, _, _, h => by
    obtain ⟨hresult, c, os, hm, hk⟩ := h
    exact ⟨hresult.extend hw, c, os, hm.extend hw, ValueCont.Fits.extend hw k hk⟩

end

end Extend

/-- What leaves a scope fits every context. -/
theorem StmtCont.Fits.of_leaves {w : World} {k : StmtCont} {c c' : Context} {os os' : List Opener}
    (hk : k.leaves) (h : k.Fits w c os) : k.Fits w c' os' := by
  cases k with
  | leave | activation => exact h
  | _ => cases hk

/-! ## Configurations -/

/-- What is done next fits an environment. -/
inductive Control.Fits (w : World) (e : EnvId) : Control → Prop where
  | evaluate {c : Context} {os : List Opener} {expr : ExprCode} {k : ValueCont}
      (hsite : w.sites ⟨c, os, .expression expr⟩) (hm : w.Mirrors e c.scopes os)
      (hk : k.Fits w c os) : Fits w e (.evaluate expr k)
  /-- The superclass is evaluated before the class has its name. -/
  | superclass {c : Context} {os : List Opener} {name : Token} {r : Ref Occurrence}
      {statics methods : List (FunDecl Occurrence)} {k : StmtCont}
      (hsite : w.sites ⟨c, os, .statement (.class name (some r) statics methods)⟩)
      (hm : w.Mirrors e c.scopes os) (hk : k.Fits w (c.declared (some name)) os) :
      Fits w e (.evaluate (.variable r) (.inherit r.token name statics methods k))
  | execute {c : Context} {os : List Opener} {s : Code} {k : StmtCont}
      (hsite : w.sites ⟨c, os, .statement s⟩) (hm : w.Mirrors e c.scopes os)
      (hk : k.Fits w (c.declared s.declared?) os) : Fits w e (.execute s k)
  | deliver {c : Context} {os : List Opener} {v : Value} {k : ValueCont}
      (hm : w.Mirrors e c.scopes os) (hv : v.Fits w) (hk : k.Fits w c os) : Fits w e (.deliver v k)
  | complete {c : Context} {os : List Opener} {completion : Completion} {k : StmtCont}
      (hm : w.Mirrors e c.scopes os) (hv : ∀ v, completion = .returned v → v.Fits w)
      (hk : k.Fits w c os) : Fits w e (.complete completion k)

/-- The world of a state. -/
def State.world (st : State) (sites : Site → Prop) (origins : List Origin) : World :=
  ⟨sites, st.store, origins⟩

/-- A configuration in a sound world. -/
structure Config.Fits (c : Config) (sites : Site → Prop) (origins : List Origin) : Prop where
  /-- The world is sound. -/
  sound : (c.state.world sites origins).Sound
  /-- What is done next fits the current environment. -/
  control : c.control.Fits (c.state.world sites origins) c.state.environment

/-- An end of a run that is no internal fault. -/
def Halt.Legal (h : Halt) : Prop := ∀ f, h ≠ .aborted (.fault f)

/-- What a step leads to in a sound world. -/
def Progress.Fits (p : Progress) (sites : Site → Prop) (origins : List Origin) : Prop :=
  match p with
  | .next c _ => c.Fits sites origins
  | .halt h st => h.Legal ∧ (st.world sites origins).Sound

end Lox
