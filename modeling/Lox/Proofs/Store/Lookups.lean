import Lox.Store.Object

/-!
# Look-ups after changes of the store

What each change of the store does to the variables of environments, to the environments around
them, to functions, classes and fields. Nothing is ever removed: an environment keeps its
parent and its names, and a function stays what it is.

## Main definitions

* `Store.Extends`: one store comes from another by changes

## Main results

* `Store.binding?_define`, `Store.parent?_addEnvironment` and their like
* `Store.extends_define` and its like: every change extends the store
-/

namespace Lox.Store

variable {σ τ υ : Store} {e a : EnvId} {name m : String} {v : Value}

/-! ## Variables and environments -/

/-- Whether an environment is in the store. -/
def Has (σ : Store) (e : EnvId) : Prop := e.index < σ.environments.size

theorem has_iff : σ.Has e ↔ ∃ env, σ.environment? e = some env := by
  rw [← Option.isSome_iff_exists]
  simp [Has, environment?]

/-- A variable is set in one environment under one name. -/
theorem binding?_define (h : σ.Has e) :
    (σ.define e name v).binding? a m =
      if a = e ∧ m = name then some v else σ.binding? a m := by
  obtain ⟨env, henv⟩ := has_iff.1 h
  unfold binding?
  rw [environment?_define]
  by_cases ha : a = e
  · subst ha
    simp [henv]
  · simp [ha]

theorem holds_define (h : σ.Has e) :
    (σ.define e name v).holds a m = (decide (a = e ∧ m = name) || σ.holds a m) := by
  unfold holds
  rw [binding?_define h]
  split <;> simp_all

theorem holds_define_self (h : σ.Has e) : (σ.define e name v).holds e name := by
  simp [holds_define h]

theorem has_define : (σ.define e name v).Has a ↔ σ.Has a := by simp [Has, define]

@[simp] theorem size_define : (σ.define e name v).environments.size = σ.environments.size := by
  simp [define]

/-- A new environment has no variables. -/
@[simp] theorem binding?_addEnvironment (p : Option EnvId) :
    (σ.addEnvironment p).2.binding? a m = σ.binding? a m := by
  unfold binding?
  by_cases ha : a = (σ.addEnvironment p).1
  · subst ha
    have hnone : σ.environment? (σ.addEnvironment p).1 = none := by
      simp [environment?, addEnvironment]
    rw [environment?_addEnvironment_self, hnone]
    rfl
  · rw [environment?_addEnvironment_of_ne σ p ha]

@[simp] theorem holds_addEnvironment (p : Option EnvId) :
    (σ.addEnvironment p).2.holds a m = σ.holds a m := by
  simp [holds]

@[simp] theorem parent?_addEnvironment_self (p : Option EnvId) :
    (σ.addEnvironment p).2.parent? (σ.addEnvironment p).1 = p := by
  simp [parent?]

theorem parent?_addEnvironment_of_ne (p : Option EnvId) (h : a ≠ (σ.addEnvironment p).1) :
    (σ.addEnvironment p).2.parent? a = σ.parent? a := by
  simp [parent?, environment?_addEnvironment_of_ne σ p h]

theorem has_of_parent? {p : EnvId} (h : σ.parent? e = some p) : σ.Has e := by
  rw [has_iff]
  unfold parent? at h
  cases henv : σ.environment? e with
  | none => simp [henv] at h
  | some env => exact ⟨env, rfl⟩

theorem has_of_holds (h : σ.holds e name) : σ.Has e := by
  rw [has_iff]
  unfold holds binding? at h
  cases henv : σ.environment? e with
  | none => simp [henv] at h
  | some env => exact ⟨env, rfl⟩

theorem ne_addEnvironment (p : Option EnvId) (h : σ.Has e) : e ≠ (σ.addEnvironment p).1 := by
  rintro rfl
  exact Nat.lt_irrefl _ h

theorem has_addEnvironment_self (p : Option EnvId) :
    (σ.addEnvironment p).2.Has (σ.addEnvironment p).1 := by
  simp [Has, addEnvironment]

@[simp] theorem size_addEnvironment (p : Option EnvId) :
    (σ.addEnvironment p).2.environments.size = σ.environments.size + 1 := by
  simp [addEnvironment]

theorem valueIn_of_holds (h : σ.holds e name) :
    ∃ v, σ.valueIn e name = .ok v ∧ σ.binding? e name = some v := by
  obtain ⟨v, hv⟩ := Option.isSome_iff_exists.1 h
  exact ⟨v, by simp [valueIn, hv], hv⟩

/-! ## Other objects -/

@[simp] theorem function?_define (f : FunId) :
    (σ.define e name v).function? f = σ.function? f := rfl

@[simp] theorem class?_define (c : ClassId) : (σ.define e name v).class? c = σ.class? c := rfl

@[simp] theorem field?_define (i : InstanceId) :
    (σ.define e name v).field? i m = σ.field? i m := rfl

@[simp] theorem function?_addEnvironment (p : Option EnvId) (f : FunId) :
    (σ.addEnvironment p).2.function? f = σ.function? f := rfl

@[simp] theorem class?_addEnvironment (p : Option EnvId) (c : ClassId) :
    (σ.addEnvironment p).2.class? c = σ.class? c := rfl

@[simp] theorem field?_addEnvironment (p : Option EnvId) (i : InstanceId) :
    (σ.addEnvironment p).2.field? i m = σ.field? i m := rfl

theorem function?_addFunction_of_some {f : FunId} {fn : Function} (g : Function)
    (h : σ.function? f = some fn) : (σ.addFunction g).2.function? f = some fn := by
  rw [function?_addFunction_of_ne, h]
  rintro rfl
  simp [function?, addFunction] at h

/-- A class is an added one or was there before. -/
theorem class?_addClass {c : Class} {d : ClassId} {cls : Class}
    (h : (σ.addClass c).2.class? d = some cls) : cls = c ∨ σ.class? d = some cls := by
  by_cases hd : d = (σ.addClass c).1
  · subst hd
    simp only [class?_addClass_self, Option.some.injEq] at h
    exact .inl h.symm
  · exact .inr (by rwa [class?_addClass_of_ne σ c hd] at h)

/-- A new instance has no fields. -/
@[simp] theorem field?_addInstance (c : ClassId) (i : InstanceId) :
    (σ.addInstance c).2.field? i m = σ.field? i m := by
  unfold field?
  by_cases hi : i = (σ.addInstance c).1
  · subst hi
    have hnone : σ.instance? (σ.addInstance c).1 = none := by simp [instance?, addInstance]
    rw [instance?_addInstance_self, hnone]
    rfl
  · rw [instance?_addInstance_of_ne σ c hi]

/-- A field is the one that was set or was there before. -/
theorem field?_setField {i j : InstanceId} {w : Value}
    (h : (σ.setField i name v).field? j m = some w) : w = v ∨ σ.field? j m = some w := by
  simp only [field?, instance?, setField, Array.getElem?_modify] at h ⊢
  split at h
  · cases hinst : σ.instances[j.index]? with
    | none => simp [hinst] at h
    | some inst =>
      rw [hinst] at h
      simp only [Option.map_some, Option.bind_some, Table.find?_set] at h
      split at h
      · exact .inl (by simpa using h.symm)
      · exact .inr h
  · exact .inr h

/-! ## Growth -/

/-- One store comes from another by changes: no name, no enclosing environment and no function
is lost. -/
structure Extends (σ τ : Store) : Prop where
  /-- Environments stay inside the same environments. -/
  parents : ∀ {e p : EnvId}, σ.parent? e = some p → τ.parent? e = some p
  /-- Environments keep their names. -/
  names : ∀ {e : EnvId} {name : String}, σ.holds e name → τ.holds e name
  /-- Functions stay the same. -/
  functions : ∀ {f : FunId} {fn : Function}, σ.function? f = some fn → τ.function? f = some fn

namespace Extends

theorem refl (σ : Store) : σ.Extends σ := ⟨id, id, id⟩

theorem trans (h : σ.Extends τ) (h' : τ.Extends υ) : σ.Extends υ :=
  ⟨h'.parents ∘ h.parents, h'.names ∘ h.names, h'.functions ∘ h.functions⟩

end Extends

theorem extends_define : σ.Extends (σ.define e name v) where
  parents hp := by simpa using hp
  names {a n} hn := by
    by_cases ha : a = e
    · subst ha
      simp [holds_define (has_of_holds hn), hn]
    · simpa [holds, binding?, environment?_define, ha] using hn
  functions := id

theorem extends_defineAll {entries : List (String × Value)} :
    σ.Extends (σ.defineAll e entries) := by
  induction entries generalizing σ with
  | nil => exact .refl σ
  | cons x rest ih => exact extends_define.trans ih

theorem functions_defineAll {entries : List (String × Value)} :
    (σ.defineAll e entries).functions = σ.functions := by
  induction entries generalizing σ with
  | nil => rfl
  | cons x rest ih => exact ih

theorem extends_addEnvironment (p : Option EnvId) : σ.Extends (σ.addEnvironment p).2 where
  parents hp := by
    rw [parent?_addEnvironment_of_ne p (ne_addEnvironment p (has_of_parent? hp)), hp]
  names hn := by simpa using hn
  functions := id

theorem extends_addFunction (g : Function) : σ.Extends (σ.addFunction g).2 :=
  ⟨id, id, function?_addFunction_of_some g⟩

theorem extends_addClass (c : Class) : σ.Extends (σ.addClass c).2 := ⟨id, id, id⟩

theorem extends_addInstance (c : ClassId) : σ.Extends (σ.addInstance c).2 := ⟨id, id, id⟩

theorem extends_setField (i : InstanceId) : σ.Extends (σ.setField i name v) := ⟨id, id, id⟩

end Lox.Store
