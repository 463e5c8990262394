import Lox.Proofs.Store.Lookups
import Mathlib.Logic.Relation

/-!
# Receivers of methods

A method belongs to the class whose table of instance methods or of static methods holds it.
It is meant for receivers of that class: an instance method for the instances of the class and
of the classes below it, a static method for these classes themselves. A search that starts at
a class that a receiver belongs to finds only methods that are meant for the receiver.

## Main definitions

* `Store.Inherits`: a class and those above it
* `Class.table`, `Store.Declares`: the methods of a class itself
* `Store.Receives`: the receivers that the methods of a class are meant for
* `Search`, `Store.found?`: a search for a method
* `Store.Retains`: classes, and the classes of instances, stay what they are

## Main results

* `Store.declares_of_found?`: where a method is found
* `Store.Receives.found?`: a method that is found is meant for the receivers of the start
-/

namespace Lox

/-- A search for a method of one kind, by its name, from a class upwards. -/
structure Search where
  /-- Whether a static method is searched. -/
  static : Bool
  /-- The class at which the search starts. -/
  start : ClassId
  /-- The name of the method. -/
  name : String

/-- The methods of one kind of a class. -/
def Class.table (cls : Class) (static : Bool) : Table FunId :=
  if static then cls.statics else cls.methods

namespace Store

/-! ## Methods and their classes -/

/-- One class is another one or has it among its superclasses. -/
def Inherits (σ : Store) : ClassId → ClassId → Prop :=
  Relation.ReflTransGen fun c s => σ.superclass? c = some s

/-- A class has a function among its methods of one kind. -/
def Declares (σ : Store) (static : Bool) (c : ClassId) (f : FunId) : Prop :=
  ∃ cls name, σ.class? c = some cls ∧ (cls.table static).find? name = some f

/-- The receivers that the methods of one kind of a class are meant for. -/
def Receives (σ : Store) (static : Bool) (c : ClassId) (receiver : Value) : Prop :=
  match static, receiver with
  | false, .instance i => ∃ inst, σ.instance? i = some inst ∧ σ.Inherits inst.classId c
  | true, .class d => σ.Inherits d c
  | _, _ => False

/-- The method that a search finds: that of the nearest class that has one. -/
def found? (σ : Store) (s : Search) : Option FunId :=
  if s.static then σ.findStatic? s.start s.name else σ.findMethod? s.start s.name

variable {σ τ υ : Store} {static : Bool} {c d s : ClassId} {f : FunId} {v : Value} {name : String}

theorem Inherits.superclass (h : σ.superclass? c = some s) : σ.Inherits c s := .single h

/-- The classes among which a search goes are those above its start. -/
theorem inherits_of_mem_lineage (h : d ∈ σ.lineage c) : σ.Inherits c d := by
  have hwithin : ∀ n c, d ∈ σ.lineageWithin n c → σ.Inherits c d := by
    intro n
    induction n with
    | zero => simp [lineageWithin]
    | succ n ih =>
      intro c h
      rcases List.mem_cons.1 h with rfl | h
      · exact .refl
      · cases hs : σ.superclass? c with
        | none => simp [hs] at h
        | some s =>
          rw [hs] at h
          exact .head hs (ih s h)
  exact hwithin _ c h

/-- A method that a search finds is declared by a class above its start. -/
theorem declares_of_found? {q : Search} (h : σ.found? q = some f) :
    ∃ c, σ.Inherits q.start c ∧ σ.Declares q.static c f := by
  obtain ⟨static, start, name⟩ := q
  cases static <;>
  · obtain ⟨c, hc, hf⟩ := List.exists_of_findSome?_eq_some h
    obtain ⟨cls, hcls, hfind⟩ := Option.bind_eq_some_iff.1 hf
    exact ⟨c, inherits_of_mem_lineage hc, cls, name, hcls, hfind⟩

namespace Receives

/-- An instance is a receiver of the instance methods of its class. -/
theorem «instance» {i : InstanceId} {inst : Lox.Instance} (h : σ.instance? i = some inst) :
    σ.Receives false inst.classId (.instance i) :=
  ⟨inst, h, .refl⟩

/-- A class is a receiver of its static methods. -/
theorem «class» (σ : Store) (c : ClassId) : σ.Receives true c (.class c) :=
  Relation.ReflTransGen.refl

/-- Methods of the classes above are meant for the same receivers. -/
theorem inherits (h : σ.Receives static c v) (hc : σ.Inherits c d) : σ.Receives static d v := by
  cases static <;> cases v <;> try exact h
  · obtain ⟨inst, hinst, hinherits⟩ := h
    exact ⟨inst, hinst, hinherits.trans hc⟩
  · exact Relation.ReflTransGen.trans h hc

/-- A method that a search finds is meant for the receivers of the class at which it starts. -/
theorem found? {q : Search} (h : σ.Receives q.static q.start v) (hf : σ.found? q = some f) :
    ∃ c, σ.Declares q.static c f ∧ σ.Receives q.static c v := by
  obtain ⟨c, hc, hdeclares⟩ := declares_of_found? hf
  exact ⟨c, hdeclares, h.inherits hc⟩

end Receives

/-! ## Changes -/

/-- Classes stay what they are, and instances stay what they are instances of. -/
structure Retains (σ τ : Store) : Prop where
  /-- The classes stay the same. -/
  classes : ∀ {c : ClassId} {cls : Class}, σ.class? c = some cls → τ.class? c = some cls
  /-- The instances are of the same classes. -/
  instances : ∀ {i : InstanceId} {inst : Lox.Instance}, σ.instance? i = some inst →
    ∃ inst', τ.instance? i = some inst' ∧ inst'.classId = inst.classId

namespace Retains

theorem refl (σ : Store) : σ.Retains σ := ⟨id, fun h => ⟨_, h, rfl⟩⟩

theorem trans (h : σ.Retains τ) (h' : τ.Retains υ) : σ.Retains υ where
  classes hc := h'.classes (h.classes hc)
  instances hi := by
    obtain ⟨inst, hinst, heq⟩ := h.instances hi
    obtain ⟨inst', hinst', heq'⟩ := h'.instances hinst
    exact ⟨inst', hinst', heq'.trans heq⟩

theorem of_eq (hc : τ.classes = σ.classes) (hi : τ.instances = σ.instances) : σ.Retains τ :=
  ⟨fun h => by rwa [class?, hc], fun h => ⟨_, by rwa [instance?, hi], rfl⟩⟩

theorem superclass? (h : σ.Retains τ) (hs : σ.superclass? c = some s) :
    τ.superclass? c = some s := by
  obtain ⟨cls, hcls, hsuper⟩ := Option.bind_eq_some_iff.1 hs
  exact Option.bind_eq_some_iff.2 ⟨cls, h.classes hcls, hsuper⟩

theorem inherits (h : σ.Retains τ) (hc : σ.Inherits c d) : τ.Inherits c d :=
  Relation.ReflTransGen.mono (fun _ _ hs => h.superclass? hs) _ _ hc

theorem declares (h : σ.Retains τ) (hf : σ.Declares static c f) : τ.Declares static c f := by
  obtain ⟨cls, name, hcls, hfind⟩ := hf
  exact ⟨cls, name, h.classes hcls, hfind⟩

theorem receives (h : σ.Retains τ) (hv : σ.Receives static c v) : τ.Receives static c v := by
  cases static <;> cases v <;> try exact hv
  · obtain ⟨inst, hinst, hinherits⟩ := hv
    obtain ⟨inst', hinst', heq⟩ := h.instances hinst
    exact ⟨inst', hinst', heq ▸ h.inherits hinherits⟩
  · exact h.inherits hv

end Retains

theorem retains_addClass (cls : Class) : σ.Retains (σ.addClass cls).2 where
  classes {c _} hc := by
    rw [class?_addClass_of_ne, hc]
    rintro rfl
    simp [class?, addClass] at hc
  instances hi := ⟨_, hi, rfl⟩

theorem retains_addInstance (c : ClassId) : σ.Retains (σ.addInstance c).2 where
  classes := id
  instances {i inst} hi := by
    refine ⟨inst, ?_, rfl⟩
    rw [instance?_addInstance_of_ne, hi]
    rintro rfl
    simp [instance?, addInstance] at hi

theorem retains_setField (i : InstanceId) (name : String) (v : Value) :
    σ.Retains (σ.setField i name v) where
  classes := id
  instances {j inst} hj := by
    simp only [instance?, setField, Array.getElem?_modify] at hj ⊢
    rw [hj]
    split
    · exact ⟨_, rfl, rfl⟩
    · exact ⟨_, rfl, rfl⟩

theorem retains_defineAll {e : EnvId} {entries : List (String × Value)} :
    σ.Retains (σ.defineAll e entries) := by
  induction entries generalizing σ with
  | nil => exact .refl σ
  | cons x rest ih =>
    have hfirst : σ.Retains (σ.define e x.1 x.2) := .of_eq rfl rfl
    exact hfirst.trans ih

theorem retains_addMethods {e : EnvId} (initializers : Bool) (table : Table FunId)
    (decls : List (FunDecl Occurrence)) :
    σ.Retains (σ.addMethods e initializers table decls).2 := by
  induction decls generalizing σ table with
  | nil => exact .refl σ
  | cons decl rest ih =>
    have hfirst : σ.Retains
        (σ.addFunction ⟨decl, e, initializers && decl.isInitName⟩).2 := .of_eq rfl rfl
    exact hfirst.trans (ih _)

theorem retains_makeClass {e : EnvId} (name : String) (s : Option ClassId)
    (statics methods : List (FunDecl Occurrence)) :
    σ.Retains (σ.makeClass e name s statics methods).2 := by
  have henter : σ.Retains (σ.enterClass e s).2 := by
    cases s <;> exact .of_eq rfl rfl
  have hmethods := henter.trans (retains_addMethods (e := (σ.enterClass e s).1) true .empty methods)
  exact (hmethods.trans (retains_addMethods false .empty statics)).trans (retains_addClass _)

/-- The methods of an added class are new, and the others stay where they are. -/
theorem declares_addClass {cls : Class} (h : (σ.addClass cls).2.Declares static c f) :
    σ.Declares static c f ∨
      c = (σ.addClass cls).1 ∧ ∃ name, (cls.table static).find? name = some f := by
  obtain ⟨found, name, hfound, hfind⟩ := h
  by_cases hc : c = (σ.addClass cls).1
  · subst hc
    rw [class?_addClass_self] at hfound
    cases hfound
    exact .inr ⟨rfl, name, hfind⟩
  · rw [class?_addClass_of_ne σ cls hc] at hfound
    exact .inl ⟨found, name, hfound, hfind⟩

end Store

end Lox
