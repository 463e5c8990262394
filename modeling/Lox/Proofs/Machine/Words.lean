import Lox.Proofs.Machine.Activations
import Lox.Proofs.Machine.Bindings

/-!
# What `this` and `super` stand for

A step sets a variable of one name in the environments that are there, or it sets variables of new
environments only. The name that it sets is one that a program declares or assigns, so it is no
reserved word: what `this` and `super` stand for in an environment never changes.

## Main definitions

* `Control.sets`: the name of the variable that the next step sets

## Main results

* `Config.spares_step`: a step sets no other variable
* `Config.binding?_word`: what a reserved word stands for at a later moment
-/

namespace Lox

/-- The name of the variable that the next step sets in an environment that is there. -/
def Control.sets : Control → List String
  | .execute (.var name _) _ | .execute (.class name none _ _) _ | .deliver _ (.var name _)
  | .deliver _ (.inherit _ name _ _ _) => [name.lexeme]
  | .execute (.function decl) _ => [decl.name.lexeme]
  | .deliver _ (.assign ref _) => [ref.token.lexeme]
  | _ => []

namespace State

variable {st : State}

theorem spares_enterFunction (st : State) (fn : Function) (arguments : List Value) :
    st.store.Spares (st.enterFunction fn arguments).store [] :=
  Store.spares_addEnvironment.defineAll (Store.not_has_addEnvironment (some fn.closure)) _

theorem spares_declareFunction (decl : FunDecl Occurrence) :
    st.store.Spares (st.declareFunction decl).store [decl.name.lexeme] := by
  have hadd : st.store.Spares (st.store.addFunction ⟨decl, st.environment, false⟩).2
      [decl.name.lexeme] := .of_environments rfl _
  exact hadd.trans Store.spares_define

theorem spares_declareClass (name : String) (s : Option ClassId)
    (statics methods : List (FunDecl Occurrence)) :
    st.store.Spares (st.declareClass name s statics methods).2.store [name] := by
  -- the name is set before the class is made and once more afterwards
  have hbegin : st.store.Spares (st.store.define st.environment name .nil) [name] :=
    Store.spares_define
  have hmake : (st.store.define st.environment name .nil).Spares
      ((st.store.define st.environment name .nil).makeClass st.environment name s statics
        methods).2 [] := Store.spares_makeClass name s statics methods
  exact (hbegin.trans (hmake.mono _)).trans Store.spares_define

/-- Each effect of a step sets no variable of another name in the environments that are there. -/
theorem Effect.spares {c : Control} {τ : Store} (h : st.Effect c τ) : st.store.Spares τ c.sets := by
  cases h with
  | assign | var => exact Store.spares_define
  | nilVar => exact Store.spares_define
  | newVar => exact Store.spares_define.trans Store.spares_define
  | block => exact Store.spares_addEnvironment.mono _
  | function => exact spares_declareFunction _
  | «class» | subclass => exact spares_declareClass _ _ _ _
  | @realize _ p _ => exact (Store.spares_realize p).mono _
  | call => exact (spares_enterFunction _ _ _).mono _
  | copy cls fn v =>
    have hadd : st.store.Spares (st.addInstance cls).2.store [] := .of_environments rfl _
    exact (hadd.trans (Store.spares_copyFor fn)).mono _
  | construct cls fn copy v arguments =>
    have hadd : st.store.Spares (st.addInstance cls).2.store [] := .of_environments rfl _
    have hcopy : st.store.Spares ((st.addInstance cls).2.copyFor fn v).2.store [] :=
      hadd.trans (Store.spares_copyFor fn)
    exact (hcopy.trans (spares_enterFunction _ _ _)).mono _
  | same | setField | addInstance => exact .of_environments rfl _

end State

/-- The name that is set next is one that a program declares or assigns. -/
theorem Control.Fits.sets_ne {w : World} {e : EnvId} {control : Control} {l : Locals}
    (h : control.Fits w e) (hs : Surveyed l w.sites) (k : Keyword) : k.text ∉ control.sets := by
  have hname : ∀ {t : Token}, t.IsName → k.text ∉ [t.lexeme] := fun ht hk =>
    ht.ne_text k (List.mem_singleton.1 hk).symm
  -- what declares or assigns a name is a node of the program, and the nodes are genuine
  cases h with
  | @execute c os s k hsite =>
    have hgenuine := (hs.settled hsite).genuine
    cases s with
    | var => exact hname hgenuine.1
    | function decl => exact hname (Stmt.GenuineFunction.name hgenuine)
    | «class» name superclass =>
      cases superclass with
      | none => exact hname hgenuine.1
      | some => exact List.not_mem_nil
    | _ => exact List.not_mem_nil
  | @deliver c os v k _ _ hk =>
    cases k with
    | assign ref k =>
      obtain ⟨⟨value, hsite⟩, -⟩ := hk
      exact hname (hs.settled hsite).genuine.1
    | var name k =>
      obtain ⟨outer, initializer, -, hsite, -⟩ := hk
      exact hname (hs.settled hsite).genuine.1
    | inherit superclass name statics methods k =>
      obtain ⟨⟨r, -, hsite⟩, -⟩ := hk
      exact hname (hs.settled hsite).genuine.1
    | _ => exact List.not_mem_nil
  | evaluate | superclass | complete => exact List.not_mem_nil

namespace Config

variable {setup : Setup} {K : Site → Prop} {O : List Origin} {c d : Config} {n : Nat} {e : EnvId}

/-- A step sets no variable of another name in the environments that are there. -/
theorem spares_step {event : Option Event} (h : c.step setup = .next d event) :
    c.state.store.Spares d.state.store c.control.sets := by
  have hspares := (effects_step c setup).store.spares
  rwa [h] at hspares

/-- What a variable that no step sets stands for in an environment stays the same. -/
theorem binding?_after {name : String}
    (hsets : ∀ m b, c.after? setup m = some b → name ∉ b.control.sets)
    (hd : c.after? setup n = some d) (he : c.state.store.Has e) :
    d.state.store.binding? e name = c.state.store.binding? e name := by
  -- at every moment on the way the environment is there, and the step sets another name
  have hmoment : d.state.store.Has e ∧
      d.state.store.binding? e name = c.state.store.binding? e name := by
    refine invariant_after (P := fun d => d.state.store.Has e ∧
      d.state.store.binding? e name = c.state.store.binding? e name) ⟨he, rfl⟩
      (fun m b hb hbefore f event hnext => ?_) hd
    obtain ⟨hhas, hsame⟩ := spares_step hnext e name hbefore.1 (hsets m b hb)
    exact ⟨hhas, hsame.trans hbefore.2⟩
  exact hmoment.2

/-- What a reserved word stands for in an environment stays the same. -/
theorem binding?_word (h : c.Fits K O) (hs : Surveyed setup.locals K)
    (hd : c.after? setup n = some d) (he : c.state.store.Has e) (k : Keyword) :
    d.state.store.binding? e k.text = c.state.store.binding? e k.text :=
  binding?_after (fun _ _ hb => (fits_after h hs hb).control.sets_ne hs k) hd he

end Config

end Lox
