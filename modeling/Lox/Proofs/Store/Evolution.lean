import Lox.Proofs.Store.Receivers

/-!
# What changes of the store leave alone

An object keeps what it was made with. An environment stays inside the same environment, a
function and a class stay as they are, and an instance keeps its class; what changes are the values
of variables and of fields, and no name is lost.

## Main definitions

* `Object`, `Store.Contains`: objects by their identities
* `Store.Evolves`: one store comes from another by changes
* `Store.Spares`: variables of other names keep their values

## Main results

* `Store.Evolves.contains`: no object is lost
* `Store.evolves_define` and its like: every change leaves objects what they are
* `Store.spares_define` and its like: a change sets variables of one name, or of no environment that
  was there before
-/

namespace Lox

/-- The identity of an object. -/
inductive Object where
  /-- An environment. -/
  | environment (e : EnvId)
  /-- A function. -/
  | function (f : FunId)
  /-- A class. -/
  | class (c : ClassId)
  /-- An instance. -/
  | instance (i : InstanceId)

namespace Store

variable {σ τ υ : Store} {e : EnvId} {name : String} {v : Value}

/-- Whether an object is in the store. -/
def Contains (σ : Store) : Object → Prop
  | .environment e => σ.Has e
  | .function f => ∃ fn, σ.function? f = some fn
  | .class c => ∃ cls, σ.class? c = some cls
  | .instance i => ∃ inst, σ.instance? i = some inst

/-- One store comes from another by changes: objects keep what they were made with, and no name of
an environment or of an instance is lost. -/
structure Evolves (σ τ : Store) : Prop where
  /-- Environments stay inside the same environments, and the outermost ones outermost. -/
  parents : ∀ {e : EnvId}, σ.Has e → τ.Has e ∧ τ.parent? e = σ.parent? e
  /-- Environments keep their names. -/
  names : ∀ {e : EnvId} {name : String}, σ.holds e name → τ.holds e name
  /-- Functions keep their closures and their declarations. -/
  functions : ∀ {f : FunId} {fn : Function}, σ.function? f = some fn → τ.function? f = some fn
  /-- Classes keep their superclasses and their methods. -/
  classes : ∀ {c : ClassId} {cls : Class}, σ.class? c = some cls → τ.class? c = some cls
  /-- Instances keep their classes and the names of their fields. -/
  instances : ∀ {i : InstanceId} {inst : Lox.Instance}, σ.instance? i = some inst →
    ∃ inst', τ.instance? i = some inst' ∧ inst'.classId = inst.classId ∧
      ∀ name, inst.fields.has name → inst'.fields.has name

namespace Evolves

theorem refl (σ : Store) : σ.Evolves σ :=
  ⟨fun h => ⟨h, rfl⟩, id, id, id, fun h => ⟨_, h, rfl, fun _ => id⟩⟩

theorem trans (h : σ.Evolves τ) (h' : τ.Evolves υ) : σ.Evolves υ where
  parents he := by
    obtain ⟨hτ, hparent⟩ := h.parents he
    obtain ⟨hυ, hparent'⟩ := h'.parents hτ
    exact ⟨hυ, hparent'.trans hparent⟩
  names := h'.names ∘ h.names
  functions := h'.functions ∘ h.functions
  classes := h'.classes ∘ h.classes
  instances hi := by
    obtain ⟨inst, hinst, hclass, hfields⟩ := h.instances hi
    obtain ⟨inst', hinst', hclass', hfields'⟩ := h'.instances hinst
    exact ⟨inst', hinst', hclass'.trans hclass, fun m hm => hfields' m (hfields m hm)⟩

/-- No object is lost. -/
theorem contains (h : σ.Evolves τ) {o : Object} (ho : σ.Contains o) : τ.Contains o := by
  cases o with
  | environment e => exact (h.parents ho).1
  | function f => exact ho.imp fun _ => h.functions
  | «class» c => exact ho.imp fun _ => h.classes
  | «instance» i =>
    obtain ⟨inst, hinst⟩ := ho
    obtain ⟨inst', hinst', -⟩ := h.instances hinst
    exact ⟨inst', hinst'⟩

/-- Environments that are set to others keep everything else as it is. -/
theorem of_environments (hparents : ∀ {e : EnvId}, σ.Has e → τ.Has e ∧ τ.parent? e = σ.parent? e)
    (hext : σ.Extends τ) (hclasses : τ.classes = σ.classes)
    (hinstances : τ.instances = σ.instances) : σ.Evolves τ where
  parents := hparents
  names := hext.names
  functions := hext.functions
  classes hc := by rwa [class?, hclasses]
  instances hi := ⟨_, by rwa [instance?, hinstances], rfl, fun _ => id⟩

end Evolves

/-! ## Changes -/

theorem evolves_define : σ.Evolves (σ.define e name v) :=
  .of_environments (fun h => ⟨has_define.2 h, parent?_define ..⟩) extends_define rfl rfl

theorem evolves_addEnvironment (p : Option EnvId) : σ.Evolves (σ.addEnvironment p).2 := by
  refine .of_environments (fun h => ⟨?_, ?_⟩) (extends_addEnvironment p) rfl rfl
  · exact Nat.lt_of_lt_of_eq (Nat.lt_succ_of_lt h) (size_addEnvironment p).symm
  · exact parent?_addEnvironment_of_ne p (ne_addEnvironment p h)

theorem evolves_addFunction (fn : Function) : σ.Evolves (σ.addFunction fn).2 :=
  .of_environments (fun h => ⟨h, rfl⟩) (extends_addFunction fn) rfl rfl

theorem evolves_addClass (cls : Class) : σ.Evolves (σ.addClass cls).2 where
  parents h := ⟨h, rfl⟩
  names := id
  functions := id
  classes := (retains_addClass cls).classes
  instances h := ⟨_, h, rfl, fun _ => id⟩

theorem evolves_addInstance (c : ClassId) : σ.Evolves (σ.addInstance c).2 where
  parents h := ⟨h, rfl⟩
  names := id
  functions := id
  classes := id
  instances {i inst} h := by
    refine ⟨inst, ?_, rfl, fun _ => id⟩
    rw [instance?_addInstance_of_ne, h]
    -- the new instance was not there before
    rintro rfl
    simp [instance?, addInstance] at h

theorem evolves_setField (i : InstanceId) : σ.Evolves (σ.setField i name v) where
  parents h := ⟨h, rfl⟩
  names := id
  functions := id
  classes := id
  instances {j inst} h := by
    simp only [instance?, setField, Array.getElem?_modify] at h ⊢
    rw [h]
    split
    · exact ⟨_, rfl, rfl, fun m hm => by simp [hm]⟩
    · exact ⟨_, rfl, rfl, fun _ => id⟩

/-! ## Variables -/

/-- The environments of a store are in another one, where their variables have the same values apart
from those of some names. -/
def Spares (σ τ : Store) (names : List String) : Prop :=
  ∀ e m, σ.Has e → m ∉ names → τ.Has e ∧ τ.binding? e m = σ.binding? e m

variable {names : List String} {p : Option EnvId}

namespace Spares

theorem of_environments (h : τ.environments = σ.environments) (names : List String) :
    σ.Spares τ names :=
  fun e m he _ => ⟨by rwa [Has, h], by rw [binding?, environment?, h]; rfl⟩

theorem trans (h : σ.Spares τ names) (h' : τ.Spares υ names) : σ.Spares υ names := by
  intro e m he hm
  obtain ⟨hτ, hsame⟩ := h e m he hm
  obtain ⟨hυ, hsame'⟩ := h' e m hτ hm
  exact ⟨hυ, hsame'.trans hsame⟩

theorem mono (h : σ.Spares τ []) (names : List String) : σ.Spares τ names :=
  fun e m he _ => h e m he List.not_mem_nil

/-- What is set in an environment that was not there before. -/
theorem define (h : σ.Spares τ names) (he : ¬ σ.Has e) : σ.Spares (τ.define e name v) names := by
  intro a m ha hm
  obtain ⟨hτ, hsame⟩ := h a m ha hm
  refine ⟨has_define.2 hτ, ?_⟩
  have hne : a ≠ e := fun heq => he (heq ▸ ha)
  rw [← hsame]
  simp [binding?, environment?_define, hne]

theorem defineAll (h : σ.Spares τ names) (he : ¬ σ.Has e) (entries : List (String × Value)) :
    σ.Spares (τ.defineAll e entries) names := by
  induction entries generalizing τ with
  | nil => exact h
  | cons x rest ih => exact ih (h.define he)

end Spares

theorem spares_define : σ.Spares (σ.define e name v) [name] := by
  intro a m ha hm
  refine ⟨has_define.2 ha, ?_⟩
  -- where the environment is missing, nothing is set
  by_cases he : σ.Has e
  · have hne : ¬ (a = e ∧ m = name) := fun hboth => hm (List.mem_singleton.2 hboth.2)
    rw [binding?_define he, if_neg hne]
  · have hne : a ≠ e := fun heq => he (heq ▸ ha)
    simp [binding?, environment?_define, hne]

theorem spares_addEnvironment : σ.Spares (σ.addEnvironment p).2 [] :=
  fun _ _ ha _ => ⟨(evolves_addEnvironment p).parents ha |>.1, binding?_addEnvironment p⟩

theorem not_has_addEnvironment (p : Option EnvId) : ¬ σ.Has (σ.addEnvironment p).1 :=
  Nat.lt_irrefl _

theorem spares_copyFor (fn : Function) : σ.Spares (σ.copyFor fn v).2 [] :=
  spares_addEnvironment.define (not_has_addEnvironment (some fn.closure))

theorem spares_realize (p : Property) : σ.Spares (σ.realize p).2 [] := by
  cases p with
  | field v => exact .of_environments rfl _
  | method fn receiver => exact (spares_copyFor fn).trans (.of_environments rfl _)

theorem environments_addMethods (initializers : Bool) (table : Table FunId)
    (decls : List (FunDecl Occurrence)) :
    (σ.addMethods e initializers table decls).2.environments = σ.environments := by
  induction decls generalizing σ table with
  | nil => rfl
  | cons decl rest ih => exact ih _

theorem spares_makeClass (className : String) (s : Option ClassId)
    (statics methods : List (FunDecl Occurrence)) :
    σ.Spares (σ.makeClass e className s statics methods).2 [] := by
  have hinner : σ.Spares (σ.enterClass e s).2 [] := by
    cases s with
    | none => exact .of_environments rfl _
    | some c => exact spares_addEnvironment.define (not_has_addEnvironment (some e))
  -- methods and the class itself are no environments
  refine hinner.trans (.of_environments ?_ _)
  exact (environments_addMethods false .empty statics).trans
    (environments_addMethods true .empty methods)

end Store

end Lox
