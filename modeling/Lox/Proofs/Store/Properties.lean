import Lox.Proofs.Machine.Growth
import Lox.Proofs.Store.Paths
import Mathlib.Data.List.Induction

/-!
# Properties over histories

Whatever properties are read and written, one after another: a field of an instance has the value
that it was last set to. Without such a field a name stands for the instance method of the nearest
class, from the class of the instance upwards, and for a class it stands for the static method of
the nearest class, from the class itself upwards. A method that is read is a new copy that sees the
object it was read from. A field that is set is seen under its own name in its own instance alone.

## Main definitions

* `Access`, `Access.lastSet?`: reading and writing a property, and what a field was last set to
* `Store.access`, `Store.accessAll`: what accesses answer, and the store after them
* `Store.Hierarchy`: a class inherits from earlier ones and its methods are there
* `Store.Copied`, `Store.Yields`: a function that got a receiver, and reading a method

## Main results

* `Store.field?_accessAll`: the fields after a history
* `Store.yields_methodFor`: reading a method that was found
* `Store.properties_of_history`: every property after every history
-/

namespace Lox

/-- An access to a property of a value. -/
inductive Access where
  /-- The property is read. -/
  | read (target : Value) (name : Token)
  /-- The property is set to a value. -/
  | write (target : Value) (name : Token) (value : Value)

namespace Access

/-- What an access sets a field of an instance to. -/
def sets? (i : InstanceId) (name : String) : Access → Option Value
  | write (.instance j) m v => if j = i ∧ m.lexeme = name then some v else none
  | _ => none

/-- What a field of an instance was last set to. -/
def lastSet? (i : InstanceId) (name : String) (accesses : List Access) : Option Value :=
  (accesses.filterMap (sets? i name)).getLast?

theorem lastSet?_concat (i : InstanceId) (name : String) (accesses : List Access) (a : Access) :
    lastSet? i name (accesses ++ [a]) = (a.sets? i name).or (lastSet? i name accesses) := by
  cases h : a.sets? i name <;> simp [lastSet?, h]

end Access

namespace Store

/-- An answer, and the store after it: an access that fails changes nothing. -/
def answered (σ : Store) : Except Abort (Value × Store) → Except Abort Value × Store
  | .ok (v, τ) => (.ok v, τ)
  | .error a => (.error a, σ)

/-- The answer of an access, and the store after it; a property that is set answers its value. -/
def access (σ : Store) : Access → Except Abort Value × Store
  | .read v name => σ.answered (σ.getProperty v name)
  | .write v name w => σ.answered ((σ.setProperty v name w).map (w, ·))

/-- The store after several accesses. -/
def accessAll (σ : Store) (accesses : List Access) : Store :=
  accesses.foldl (fun σ a => (σ.access a).2) σ

variable {σ τ : Store} {i j : InstanceId} {c : ClassId} {name m : String} {v w : Value}

theorem accessAll_concat (accesses : List Access) (a : Access) :
    σ.accessAll (accesses ++ [a]) = ((σ.accessAll accesses).access a).2 := by
  simp [accessAll]

/-! ## One access -/

theorem access_write (i : InstanceId) (name : Token) (w : Value) :
    σ.access (.write (.instance i) name w) = (.ok w, σ.setField i name.lexeme w) := rfl

/-- Only instances have fields that can be set. -/
theorem access_write_of_ne (hv : ∀ i, v ≠ .instance i) (name : Token) (w : Value) :
    σ.access (.write v name w) = (.error (.atToken name .noFields), σ) := by
  cases v with
  | «instance» i => exact absurd rfl (hv i)
  | _ => rfl

/-- What an access does to the store: nothing, or a method gets a receiver, or a field of an
instance is set. -/
theorem access_cases (σ : Store) (a : Access) :
    ((σ.access a).2 = σ ∧ ∀ i name, a.sets? i name = none) ∨
      (∃ fn receiver, (σ.access a).2 = (σ.bind fn receiver).2 ∧ ∀ i name, a.sets? i name = none) ∨
        ∃ i name w, a = .write (.instance i) name w ∧
          (σ.access a).2 = σ.setField i name.lexeme w := by
  cases a with
  | read v name =>
    simp only [access, getProperty]
    cases σ.property v name with
    | error a => exact .inl ⟨rfl, fun _ _ => rfl⟩
    | ok p =>
      cases p with
      | field w => exact .inl ⟨rfl, fun _ _ => rfl⟩
      | method fn receiver => exact .inr (.inl ⟨fn, receiver, rfl, fun _ _ => rfl⟩)
  | write v name w =>
    cases v with
    | «instance» i => exact .inr (.inr ⟨i, name, w, rfl, rfl⟩)
    | _ => exact .inl ⟨rfl, fun _ _ => rfl⟩

/-- A field that is set has its value, and every other field is what it was. -/
theorem field?_setField_of_some {inst : Lox.Instance} (h : σ.instance? i = some inst)
    (m : String) :
    (σ.setField j name w).field? i m = if j = i ∧ name = m then some w else σ.field? i m := by
  have hindex : j.index = i.index ↔ j = i := by
    cases i
    cases j
    simp
  simp only [instance?] at h
  simp only [field?, instance?, setField, Array.getElem?_modify, h, hindex]
  by_cases hj : j = i
  · by_cases hm : m = name
    · simp [hj, hm]
    · simp [hj, hm, Ne.symm hm]
  · simp [hj]

theorem field?_setField_of_ne (h : j = i → name ≠ m) :
    (σ.setField j name w).field? i m = σ.field? i m := by
  cases hinst : σ.instance? i with
  | some inst =>
    rw [field?_setField_of_some hinst, if_neg fun hboth => h hboth.1 hboth.2]
  | none =>
    simp only [instance?] at hinst
    simp [field?, instance?, setField, Array.getElem?_modify, hinst]

/-! ## Look-ups in other stores -/

theorem superclass?_congr (h : τ.classes = σ.classes) : τ.superclass? = σ.superclass? := by
  funext c
  rw [superclass?, class?, h]
  rfl

theorem lineage_congr (h : τ.classes = σ.classes) (c : ClassId) : τ.lineage c = σ.lineage c := by
  have hwithin : ∀ n c, τ.lineageWithin n c = σ.lineageWithin n c := by
    intro n
    induction n with
    | zero => exact fun c => rfl
    | succ n ih =>
      intro c
      simp only [lineageWithin, superclass?_congr h]
      cases σ.superclass? c with
      | none => rfl
      | some s => exact congrArg (c :: ·) (ih s)
  rw [lineage, lineage, h, hwithin]

/-- A search finds the same method where the classes are the same. -/
theorem found?_congr (h : τ.classes = σ.classes) (q : Search) : τ.found? q = σ.found? q := by
  have hmethod : ∀ d, τ.ownMethod? d q.name = σ.ownMethod? d q.name := by
    intro d
    rw [ownMethod?, class?, h]
    rfl
  have hstatic : ∀ d, τ.ownStatic? d q.name = σ.ownStatic? d q.name := by
    intro d
    rw [ownStatic?, class?, h]
    rfl
  simp only [found?, findMethod?, findStatic?, lineage_congr h, hmethod, hstatic]

/-- A field that is set changes no property of another value and none of another name. -/
theorem property_setField_of_ne {t : Token} (h : v = .instance j → name ≠ t.lexeme) :
    (σ.setField j name w).property v t = σ.property v t := by
  have hfound : ∀ q, (σ.setField j name w).found? q = σ.found? q := found?_congr rfl
  cases v with
  | «instance» i =>
    have hfield : (σ.setField j name w).field? i t.lexeme = σ.field? i t.lexeme :=
      field?_setField_of_ne fun hj => h (by rw [hj])
    have hmethod : (σ.setField j name w).instanceMethod? i t.lexeme =
        σ.instanceMethod? i t.lexeme := by
      have hclass : ∀ d, (σ.setField j name w).findMethod? d t.lexeme = σ.findMethod? d t.lexeme :=
        fun d => hfound ⟨false, d, t.lexeme⟩
      simp only [instanceMethod?, hclass]
      simp only [instance?, setField, Array.getElem?_modify]
      split
      · cases σ.instances[i.index]? <;> rfl
      · rfl
    simp only [property, hfield, hmethod]
    rfl
  | «class» c =>
    have hstatic : (σ.setField j name w).findStatic? c t.lexeme = σ.findStatic? c t.lexeme :=
      hfound ⟨true, c, t.lexeme⟩
    simp only [property, hstatic]
    rfl
  | _ => rfl

/-- A field that is set changes no answer for another value and none for another name. -/
theorem access_read_setField {t : Token} (h : v = .instance j → name ≠ t.lexeme) :
    ((σ.setField j name w).access (.read v t)).1 = (σ.access (.read v t)).1 := by
  simp only [access, getProperty, property_setField_of_ne h]
  cases σ.property v t with
  | error a => rfl
  | ok p => cases p <;> rfl

/-! ## Histories -/

/-- What accesses leave of a store: classes and functions stay what they are and instances keep
their classes, and a field has the value that it was last set to, or else the one that it had
before. -/
structure Kept (σ τ : Store) (accesses : List Access) : Prop where
  /-- The classes are the same. -/
  classes : τ.classes = σ.classes
  /-- The functions are still there. -/
  functions : ∀ {f : FunId} {fn : Function}, σ.function? f = some fn → τ.function? f = some fn
  /-- The instances are of the same classes. -/
  instances : ∀ {i : InstanceId} {inst : Lox.Instance}, σ.instance? i = some inst →
    ∃ inst', τ.instance? i = some inst' ∧ inst'.classId = inst.classId
  /-- The fields have the values that they were last set to. -/
  fields : ∀ {i : InstanceId} {inst : Lox.Instance}, σ.instance? i = some inst → ∀ name,
    τ.field? i name = (Access.lastSet? i name accesses).or (σ.field? i name)

/-- One more access. -/
theorem Kept.access {accesses : List Access} (h : σ.Kept τ accesses) (a : Access) :
    σ.Kept (τ.access a).2 (accesses ++ [a]) := by
  have hlast : ∀ i name, Access.lastSet? i name (accesses ++ [a]) =
      (a.sets? i name).or (Access.lastSet? i name accesses) :=
    fun i name => Access.lastSet?_concat i name accesses a
  rcases access_cases τ a with ⟨hτ, hsets⟩ | ⟨fn, receiver, hτ, hsets⟩ | ⟨j, t, w, rfl, hτ⟩ <;>
    rw [hτ]
  · refine ⟨h.classes, h.functions, h.instances, fun hi name => ?_⟩
    rw [hlast, hsets, Option.none_or]
    exact h.fields hi name
  · refine ⟨h.classes, fun hf => ?_, h.instances, fun hi name => ?_⟩
    · exact function?_addFunction_of_some _ (h.functions hf)
    · rw [hlast, hsets, Option.none_or]
      exact h.fields hi name
  · refine ⟨h.classes, h.functions, fun hi => ?_, fun hi name => ?_⟩
    · obtain ⟨inst', hinst', hclass⟩ := h.instances hi
      obtain ⟨inst'', hinst'', hclass'⟩ := (retains_setField j t.lexeme w).instances hinst'
      exact ⟨inst'', hinst'', hclass'.trans hclass⟩
    · obtain ⟨inst', hinst', -⟩ := h.instances hi
      rw [hlast, field?_setField_of_some hinst', Option.or_assoc, ← h.fields hi name]
      simp only [Access.sets?]
      split <;> simp

theorem kept_accessAll (σ : Store) (accesses : List Access) :
    σ.Kept (σ.accessAll accesses) accesses := by
  induction accesses using List.reverseRecOn with
  | nil => exact ⟨rfl, id, fun hi => ⟨_, hi, rfl⟩, fun _ _ => rfl⟩
  | append_singleton accesses a ih =>
    rw [accessAll_concat]
    exact ih.access a

/-! ## Methods that are read -/

/-- A class inherits from an earlier one, the methods of a class are there, and so are the classes
of instances. -/
structure Hierarchy (σ : Store) : Prop where
  /-- A class inherits from an earlier one. -/
  superclasses : ∀ {c s : ClassId}, σ.superclass? c = some s → s.index < c.index
  /-- Methods. -/
  methods : ∀ {static : Bool} {c : ClassId} {f : FunId}, σ.Declares static c f →
    σ.Contains (.function f)
  /-- Classes of instances. -/
  instances : ∀ {i : InstanceId} {inst : Lox.Instance}, σ.instance? i = some inst →
    σ.Contains (.class inst.classId)

/-- The classes of a store in which nothing dangles. -/
theorem Linked.hierarchy (h : σ.Linked) : σ.Hierarchy := ⟨h.superclasses, h.methods, h.instances⟩

/-- The classes above one come to an end. -/
theorem Hierarchy.leads_lineage (h : σ.Hierarchy) (hc : σ.Contains (.class c)) :
    Leads σ.superclass? c (σ.lineage c) := by
  obtain ⟨cls, hcls⟩ := hc
  refine Leads.of_rank σ.lineageWithin ClassId.index (fun n a => ?_)
    (fun _ _ => h.superclasses) (Array.getElem?_eq_some_iff.1 hcls).1
  cases hs : σ.superclass? a <;> simp [lineageWithin, hs]

/-- One function is new in a store, and it is a copy of another one that sees a receiver: nothing
but the receiver is in the environment that is put around its body. -/
structure Copied (σ τ : Store) (g : FunId) (receiver : Value) (f : FunId) : Prop where
  /-- The function was not there. -/
  fresh : σ.function? f = none
  /-- It is a copy of one that was. -/
  copy : ∃ fn e, σ.function? g = some fn ∧ τ.function? f = some { fn with closure := e } ∧
    ¬ σ.Has e ∧ τ.environment? e =
      some { parent := some fn.closure, values := Table.empty.set "this" receiver }

/-- What reading a method from an object comes to, given the method that is found: a copy that sees
the object, or an error where none is found. -/
def Yields (σ : Store) (receiver : Value) (name : Token) : Option FunId → Prop
  | some g => ∃ f τ, σ.getProperty receiver name = .ok (.function f, τ) ∧
      σ.Copied τ g receiver f
  | none => σ.getProperty receiver name = .error (.atToken name (.undefinedProperty name.lexeme))

theorem copied_bind {g : FunId} {fn : Function} (h : σ.function? g = some fn) (receiver : Value) :
    σ.Copied (σ.bind fn receiver).2 g receiver (σ.bind fn receiver).1 where
  fresh := by simp [bind, copyFor, addFunction, function?, define, addEnvironment]
  copy := by
    refine ⟨fn, (σ.addEnvironment (some fn.closure)).1, h, function?_addFunction_self _ _,
      not_has_addEnvironment _, ?_⟩
    have hdefine := environment?_define (σ.addEnvironment (some fn.closure)).2
      (σ.addEnvironment (some fn.closure)).1 (σ.addEnvironment (some fn.closure)).1 "this" receiver
    rw [if_pos rfl, environment?_addEnvironment_self] at hdefine
    exact hdefine

/-- Reading a method that was found. -/
theorem yields_methodFor {receiver : Value} {t : Token} {found : Option FunId}
    (h : σ.property receiver t = σ.methodFor found receiver t)
    (hfound : ∀ g ∈ found, ∃ fn, σ.function? g = some fn) : σ.Yields receiver t found := by
  cases found with
  | none =>
    show (σ.property receiver t).map σ.realize = _
    rw [h]
    rfl
  | some g =>
    obtain ⟨fn, hfn⟩ := hfound g rfl
    refine ⟨(σ.bind fn receiver).1, (σ.bind fn receiver).2, ?_, copied_bind hfn receiver⟩
    show (σ.property receiver t).map σ.realize = _
    rw [h]
    simp only [methodFor, function, hfn]
    rfl

/-- A search in a hierarchy ends, and what it finds is there. -/
theorem Hierarchy.exists_of_found? (h : σ.Hierarchy) {q : Search} {g : FunId}
    (hg : σ.found? q = some g) : ∃ fn, σ.function? g = some fn := by
  obtain ⟨c, -, hdeclares⟩ := declares_of_found? hg
  exact h.methods hdeclares

/-! ## Every property -/

/-- A property of an instance after a history: the field, or else the method of its class. -/
theorem Kept.instance_property {accesses : List Access} (h : σ.Kept τ accesses)
    (hσ : σ.Hierarchy) {inst : Lox.Instance} (hi : σ.instance? i = some inst) (t : Token) :
    match (Access.lastSet? i t.lexeme accesses).or (σ.field? i t.lexeme) with
    | some v => τ.getProperty (.instance i) t = .ok (v, τ)
    | none => ∃ found, Seeks σ.superclass? (σ.ownMethod? · t.lexeme) inst.classId found ∧
        τ.Yields (.instance i) t found := by
  have hfield := h.fields hi t.lexeme
  cases hlast : (Access.lastSet? i t.lexeme accesses).or (σ.field? i t.lexeme) with
  | some v =>
    rw [hlast] at hfield
    simp only [getProperty, property, hfield]
    rfl
  | none =>
    rw [hlast] at hfield
    obtain ⟨inst', hinst', hclass⟩ := h.instances hi
    have hsame := found?_congr h.classes ⟨false, inst.classId, t.lexeme⟩
    refine ⟨σ.findMethod? inst.classId t.lexeme,
      (hσ.leads_lineage (hσ.instances hi)).seeks _, yields_methodFor ?_ fun g hg => ?_⟩
    · have hmethod : τ.instanceMethod? i t.lexeme = τ.findMethod? inst.classId t.lexeme := by
        rw [instanceMethod?, hinst', Option.bind_some, hclass]
      simp only [property, hfield, hmethod]
      exact congrArg (τ.methodFor · (.instance i) t) hsame
    · obtain ⟨fn, hfn⟩ := hσ.exists_of_found? (q := ⟨false, inst.classId, t.lexeme⟩) hg
      exact ⟨fn, h.functions hfn⟩

/-- A property of a class after a history: its static method. -/
theorem Kept.class_property {accesses : List Access} (h : σ.Kept τ accesses)
    (hσ : σ.Hierarchy) (hc : σ.Contains (.class c)) (t : Token) :
    ∃ found, Seeks σ.superclass? (σ.ownStatic? · t.lexeme) c found ∧
      τ.Yields (.class c) t found := by
  have hsame := found?_congr h.classes ⟨true, c, t.lexeme⟩
  refine ⟨σ.findStatic? c t.lexeme, (hσ.leads_lineage hc).seeks _,
    yields_methodFor ?_ fun g hg => ?_⟩
  · exact congrArg (τ.methodFor · (.class c) t) hsame
  · obtain ⟨fn, hfn⟩ := hσ.exists_of_found? (q := ⟨true, c, t.lexeme⟩) hg
    exact ⟨fn, h.functions hfn⟩

/-- Properties after a history of accesses.

Whatever was read and written before, in whatever order, a name read from an instance stands for the
value that this field of this instance was last set to. Where it was not set, it stands for the
method of that name among the instance methods of the nearest class that has one, from the class of
the instance upwards; and read from a class for that among the static methods, from the class itself
upwards. The method that is read is a new copy that sees the object as `this`. Where there is none,
and for values that are neither instances nor classes, the access is an error. A property that is
set is an error and changes nothing unless it is set for an instance; then no reading of another
name, of another instance or of a class has another answer than before. -/
theorem properties_of_history (h : σ.Hierarchy) (accesses : List Access) :
    let τ := σ.accessAll accesses
    (∀ i inst name, σ.instance? i = some inst →
      match (Access.lastSet? i name.lexeme accesses).or (σ.field? i name.lexeme) with
      | some v => τ.getProperty (.instance i) name = .ok (v, τ)
      | none => ∃ found, Seeks σ.superclass? (σ.ownMethod? · name.lexeme) inst.classId found ∧
          τ.Yields (.instance i) name found) ∧
    (∀ c name, σ.Contains (.class c) →
      ∃ found, Seeks σ.superclass? (σ.ownStatic? · name.lexeme) c found ∧
        τ.Yields (.class c) name found) ∧
    (∀ v name, (∀ i, v ≠ .instance i) → (∀ c, v ≠ .class c) →
      τ.getProperty v name = .error (.atToken name .noProperties)) ∧
    (∀ v name w, (∀ i, v ≠ .instance i) →
      τ.access (.write v name w) = (.error (.atToken name .noFields), τ)) ∧
    ∀ i name w, (τ.access (.write (.instance i) name w)).1 = .ok w ∧
      ∀ v other, (v = .instance i → name.lexeme ≠ other.lexeme) →
        ((τ.access (.write (.instance i) name w)).2.access (.read v other)).1 =
          (τ.access (.read v other)).1 := by
  intro τ
  have hkept : σ.Kept τ accesses := kept_accessAll σ accesses
  refine ⟨fun i inst name hi => hkept.instance_property h hi name,
    fun c name hc => hkept.class_property h hc name, fun v name hi hc => ?_,
    fun v name w hv => access_write_of_ne hv name w, fun i name w => ?_⟩
  · cases v with
    | «instance» i => exact absurd rfl (hi i)
    | «class» c => exact absurd rfl (hc c)
    | _ => rfl
  · rw [access_write]
    exact ⟨rfl, fun v other hother => access_read_setField hother⟩

/-- Two instances of a class that inherits both an instance method and a static method of the same
name, one of them with a field of that name. -/
theorem properties_of_history_shadowed :
    let m : Token := ⟨.identifier, "m", 1, 1⟩
    let decl : FunDecl Occurrence := .mk m [] []
    let above := fresh.makeClass globals "A" none [decl] [decl]
    let below := above.2.makeClass globals "B" (some above.1) [] []
    let σ := ((below.2.addInstance below.1).2.addInstance below.1).2
    let τ := σ.accessAll [.write (.instance ⟨0⟩) m (.bool true), .write (.class ⟨1⟩) m .nil]
    σ.Hierarchy ∧ τ.getProperty (.instance ⟨0⟩) m = .ok (.bool true, τ) ∧
      τ.Yields (.instance ⟨1⟩) m (some ⟨0⟩) ∧ τ.Yields (.class ⟨1⟩) m (some ⟨1⟩) := by
  intro m decl above below σ τ
  obtain ⟨habove, hclass⟩ := linked_fresh.makeClass linked_fresh.globals "A" (s := none)
    (fun _ hc => nomatch hc) [decl] [decl]
  obtain ⟨hbelow, hsub⟩ := habove.linked.makeClass habove.linked.globals "B" (s := some above.1)
    (fun c hc => Option.some.inj hc ▸ hclass) [] []
  have hfirst := hbelow.linked.addInstance hsub
  have hσ : σ.Hierarchy :=
    (hfirst.linked.addInstance (hfirst.evolves.contains hsub)).linked.hierarchy
  obtain ⟨hinstances, hclasses, -⟩ := properties_of_history hσ
    [.write (.instance ⟨0⟩) m (.bool true), .write (.class ⟨1⟩) m .nil]
  obtain ⟨found, hfound, hyields⟩ := hinstances ⟨1⟩ ⟨⟨1⟩, .empty⟩ m rfl
  obtain ⟨found', hfound', hyields'⟩ := hclasses ⟨1⟩ m ⟨_, rfl⟩
  obtain rfl := hfound.unique (.further rfl rfl (.here (b := ⟨0⟩) rfl))
  obtain rfl := hfound'.unique (.further rfl rfl (.here (b := ⟨1⟩) rfl))
  exact ⟨hσ, hinstances ⟨0⟩ ⟨⟨1⟩, .empty⟩ m rfl, hyields, hyields'⟩

end Store

end Lox
