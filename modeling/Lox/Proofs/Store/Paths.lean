import Lox.Proofs.Store.Linked

/-!
# Following references

A search for a variable goes from an environment to the one around it, and a search for a method
from a class to its superclass, for as long as there is one: nothing else bounds it. In a linked
store both end, since an environment is inside an earlier one and a class inherits from an earlier
one, and what bounds the searches of the store is then no restriction.

## Main definitions

* `Leads`: following a partial function leads along a path that ends
* `Seeks`: a search that nothing bounds ends with a result
* `Store.Refers`: one object refers to another
* `Store.WellFormed`: searches end and no reference dangles

## Main results

* `Leads.nodup`: a path that ends meets nothing twice
* `Leads.seeks`: a search along a path that ends
* `Store.Linked.wellFormed`
-/

namespace Lox

section Paths

variable {α β : Type} {next : α → Option α} {a b : α} {path path' : List α}

/-- Following a partial function from a start leads along a path, and then no further. -/
inductive Leads (next : α → Option α) : α → List α → Prop where
  | last {a : α} (h : next a = none) : Leads next a [a]
  | onward {a b : α} {path : List α} (h : next a = some b) (rest : Leads next b path) :
      Leads next a (a :: path)

/-- A search that goes on to the next place until something is found or there is no next place, with
its result. -/
inductive Seeks (next : α → Option α) (look : α → Option β) : α → Option β → Prop where
  | here {a : α} {b : β} (h : look a = some b) : Seeks next look a (some b)
  | nowhere {a : α} (h : look a = none) (hend : next a = none) : Seeks next look a none
  | further {a b : α} {r : Option β} (h : look a = none) (hnext : next a = some b)
      (rest : Seeks next look b r) : Seeks next look a r

/-- A search has one result. -/
theorem Seeks.unique {look : α → Option β} {r r' : Option β} (h : Seeks next look a r)
    (h' : Seeks next look a r') : r = r' := by
  induction h with
  | here hlook =>
    cases h' with
    | here hlook' => exact hlook.symm.trans hlook'
    | nowhere hlook' => cases hlook.symm.trans hlook'
    | further hlook' => cases hlook.symm.trans hlook'
  | nowhere hlook hend =>
    cases h' with
    | here hlook' => cases hlook.symm.trans hlook'
    | nowhere => rfl
    | further _ hnext => cases hend.symm.trans hnext
  | further hlook hnext _ ih =>
    cases h' with
    | here hlook' => cases hlook.symm.trans hlook'
    | nowhere _ hend => cases hend.symm.trans hnext
    | further _ hnext' rest =>
      obtain rfl := Option.some.inj (hnext.symm.trans hnext')
      exact ih rest

namespace Leads

theorem unique (h : Leads next a path) (h' : Leads next a path') : path = path' := by
  induction h generalizing path' with
  | last hend =>
    cases h' with
    | last => rfl
    | onward hnext => cases hend.symm.trans hnext
  | onward hnext _ ih =>
    cases h' with
    | last hend => cases hend.symm.trans hnext
    | onward hnext' rest =>
      obtain rfl := Option.some.inj (hnext.symm.trans hnext')
      rw [ih rest]

/-- What is met on a path leads along the rest of it. -/
theorem exists_of_mem (h : Leads next a path) (hb : b ∈ path) :
    ∃ rest, Leads next b rest ∧ rest.length ≤ path.length := by
  induction h with
  | @last a hend =>
    obtain rfl := List.mem_singleton.1 hb
    exact ⟨_, .last hend, Nat.le_refl _⟩
  | @onward a c path hnext hrest ih =>
    rcases List.mem_cons.1 hb with rfl | hb
    · exact ⟨_, .onward hnext hrest, Nat.le_refl _⟩
    · obtain ⟨rest, hleads, hle⟩ := ih hb
      exact ⟨rest, hleads, Nat.le_succ_of_le hle⟩

/-- A path that ends meets nothing twice: from the second time on it would go the same way. -/
theorem nodup (h : Leads next a path) : path.Nodup := by
  induction h with
  | last => simp
  | @onward a b path hnext hrest ih =>
    refine List.nodup_cons.2 ⟨fun hmem => ?_, ih⟩
    -- a path from there on would be as long as the whole
    obtain ⟨rest, hleads, hle⟩ := hrest.exists_of_mem hmem
    obtain rfl := hleads.unique (.onward hnext hrest)
    exact Nat.not_succ_le_self _ hle

/-- The end of a path, with what each step keeps. -/
theorem exists_last {P : α → Prop} (h : Leads next a path) (ha : P a)
    (hP : ∀ a b, P a → next a = some b → P b) :
    ∃ z, path.getLast? = some z ∧ P z ∧ next z = none := by
  induction h with
  | @last a hend => exact ⟨a, rfl, ha, hend⟩
  | @onward a b path hnext hrest ih =>
    obtain ⟨z, hz, hPz, hend⟩ := ih (hP a b ha hnext)
    refine ⟨z, ?_, hPz, hend⟩
    rw [List.getLast?_cons, hz]
    rfl

/-- A search along a path that ends finds what there is first. -/
theorem seeks (h : Leads next a path) (look : α → Option β) :
    Seeks next look a (path.findSome? look) := by
  induction h with
  | @last a hend =>
    cases hlook : look a with
    | none => simpa [hlook] using Seeks.nowhere hlook hend
    | some b => simpa [hlook] using Seeks.here hlook
  | @onward a b path hnext _ ih =>
    cases hlook : look a with
    | none => simpa [hlook] using Seeks.further hlook hnext ih
    | some b => simpa [hlook] using Seeks.here hlook

/-- What goes downwards in some order leads to an end, and as many steps as the order allows are
enough. -/
theorem of_rank (within : Nat → α → List α) (rank : α → Nat)
    (hwithin : ∀ n a, within (n + 1) a = a :: ((next a).map (within n)).getD [])
    (hrank : ∀ a b, next a = some b → rank b < rank a) {n : Nat} (hn : rank a < n) :
    Leads next a (within n a) := by
  induction n generalizing a with
  | zero => exact absurd hn (Nat.not_lt_zero _)
  | succ n ih =>
    rw [hwithin]
    cases hnext : next a with
    | none => exact .last hnext
    | some b =>
      refine .onward hnext (ih ?_)
      have hlt : rank b < rank a := hrank a b hnext
      omega

end Leads

end Paths

namespace Store

variable {σ : Store} {e : EnvId} {c : ClassId}

/-- One object refers to another. -/
inductive Refers (σ : Store) : Object → Object → Prop where
  | parent {e p : EnvId} (h : σ.parent? e = some p) : Refers σ (.environment e) (.environment p)
  | variable {e : EnvId} {name : String} {v : Value} {o : Object}
      (h : σ.binding? e name = some v) (ho : o ∈ v.objects) : Refers σ (.environment e) o
  | closure {f : FunId} {fn : Function} (h : σ.function? f = some fn) :
      Refers σ (.function f) (.environment fn.closure)
  | superclass {c s : ClassId} (h : σ.superclass? c = some s) : Refers σ (.class c) (.class s)
  | method {static : Bool} {c : ClassId} {f : FunId} (h : σ.Declares static c f) :
      Refers σ (.class c) (.function f)
  | classOf {i : InstanceId} {inst : Lox.Instance} (h : σ.instance? i = some inst) :
      Refers σ (.instance i) (.class inst.classId)
  | field {i : InstanceId} {name : String} {v : Value} {o : Object}
      (h : σ.field? i name = some v) (ho : o ∈ v.objects) : Refers σ (.instance i) o

/-- Searches end, and no reference dangles. -/
structure WellFormed (σ : Store) : Prop where
  /-- The environments around one lead to the globals, and none is met twice. -/
  environments : ∀ e, σ.Contains (.environment e) → Leads σ.parent? e (σ.chain e) ∧
    (σ.chain e).Nodup ∧ (σ.chain e).getLast? = some Store.globals
  /-- The classes above one come to an end, and none is met twice. -/
  classes : ∀ c, σ.Contains (.class c) → Leads σ.superclass? c (σ.lineage c) ∧ (σ.lineage c).Nodup
  /-- The search for a variable that is read. -/
  reads : ∀ e name, σ.Contains (.environment e) →
    Seeks σ.parent? (σ.binding? · name) e ((σ.owner? e name).bind (σ.binding? · name))
  /-- The search for a variable that is assigned. -/
  assigns : ∀ e name, σ.Contains (.environment e) →
    Seeks σ.parent? (Option.guard (σ.holds · name)) e (σ.owner? e name)
  /-- The search for an instance method. -/
  methods : ∀ c name, σ.Contains (.class c) →
    Seeks σ.superclass? (σ.ownMethod? · name) c (σ.findMethod? c name)
  /-- The search for a static method. -/
  statics : ∀ c name, σ.Contains (.class c) →
    Seeks σ.superclass? (σ.ownStatic? · name) c (σ.findStatic? c name)
  /-- What an object refers to is in the store. -/
  references : ∀ a b, σ.Refers a b → σ.Contains b

namespace Linked

variable (h : σ.Linked)

include h

theorem leads_chain (he : σ.Has e) : Leads σ.parent? e (σ.chain e) := by
  refine Leads.of_rank σ.chainWithin EnvId.index (fun n a => ?_)
    (fun _ _ => h.parents) he
  cases hp : σ.parent? a <;> simp [chainWithin, hp]

theorem leads_lineage (hc : σ.Contains (.class c)) : Leads σ.superclass? c (σ.lineage c) := by
  obtain ⟨cls, hcls⟩ := hc
  refine Leads.of_rank σ.lineageWithin ClassId.index (fun n a => ?_)
    (fun _ _ => h.superclasses) (Array.getElem?_eq_some_iff.1 hcls).1
  cases hs : σ.superclass? a <;> simp [lineageWithin, hs]

/-- What an object refers to is in the store. -/
theorem contains_of_refers {a b : Object} (hab : σ.Refers a b) : σ.Contains b := by
  cases hab with
  | parent hp => exact Nat.lt_trans (h.parents hp) (has_of_parent? hp)
  | «variable» hv ho => exact h.bindings hv _ ho
  | closure hf => exact h.closures hf
  | @superclass c s hs =>
    obtain ⟨cls, hcls, -⟩ := Option.bind_eq_some_iff.1 hs
    have hlt := Nat.lt_trans (h.superclasses hs) (Array.getElem?_eq_some_iff.1 hcls).1
    exact ⟨_, Array.getElem?_eq_getElem hlt⟩
  | method hf => exact h.methods hf
  | classOf hi => exact h.instances hi
  | field hv ho => exact h.fields hv _ ho

/-- The value that is read is that of the environment whose variable is assigned. -/
theorem seeks_binding (he : σ.Has e) (name : String) :
    Seeks σ.parent? (σ.binding? · name) e ((σ.owner? e name).bind (σ.binding? · name)) := by
  -- the first environment that has a value of the name is the first that holds it
  have hfirst : ∀ es : List EnvId, es.findSome? (σ.binding? · name) =
      (es.find? (σ.holds · name)).bind (σ.binding? · name) := by
    intro es
    induction es with
    | nil => rfl
    | cons a rest ih =>
      cases hb : σ.binding? a name with
      | none => simp [holds, hb, ih]
      | some v => simp [holds, hb]
  rw [owner?, ← hfirst]
  exact (h.leads_chain he).seeks _

theorem wellFormed : σ.WellFormed where
  environments e he := by
    have hleads := h.leads_chain he
    obtain ⟨z, hz, hhas, hend⟩ := hleads.exists_last he fun _ _ _ hab =>
      h.contains_of_refers (.parent hab)
    -- the globals are the only environment that is outermost
    obtain rfl := (h.outermost hhas).1 hend
    exact ⟨hleads, hleads.nodup, hz⟩
  classes c hc := ⟨h.leads_lineage hc, (h.leads_lineage hc).nodup⟩
  reads e name he := h.seeks_binding he name
  assigns e name he := by
    rw [owner?, List.find?_eq_findSome?_guard]
    exact (h.leads_chain he).seeks _
  methods c name hc := (h.leads_lineage hc).seeks _
  statics c name hc := (h.leads_lineage hc).seeks _
  references _ _ := h.contains_of_refers

end Linked

end Store

end Lox
