import Lox.Proofs.Store.Paths
import Mathlib.Data.List.Nodup
import Mathlib.Data.List.Perm.Subperm
import Mathlib.Logic.Function.Iterate

/-!
# Environments as shared variables

Environments form a forest in which siblings share what encloses them. A variable belongs to the
nearest environment outwards that holds its name, its owner. What is assigned through one
environment is therefore read through exactly those from which the search ends at the same owner,
and a new variable is read through those whose search gets as far as the environment that it is
put into.

## Main definitions

* `Store.Forest`: going outwards stays in the store and comes to an end
* `Store.Owner`, `Store.Reaches`: where a search ends, and what it gets to
* `Store.outward?`: the environment some number of parents up
* `Store.SharesVariables`: reading and writing by search and by distance

## Main results

* `Store.Forest.leads_chain`: the chain of an environment is all that encloses it
* `Store.Forest.sharesVariables`: every forest shares its variables
-/

namespace Lox

section Paths

variable {α : Type} {next : α → Option α} {a b : α} {path : List α}

/-- What is met on a path is some number of steps away. -/
theorem Leads.exists_iterate (h : Leads next a path) (hb : b ∈ path) :
    ∃ d, (Option.bind · next)^[d] (some a) = some b := by
  induction h with
  | last =>
    obtain rfl := List.mem_singleton.1 hb
    exact ⟨0, rfl⟩
  | onward hnext _ ih =>
    rcases List.mem_cons.1 hb with rfl | hb
    · exact ⟨0, rfl⟩
    · obtain ⟨d, hd⟩ := ih hb
      exact ⟨d + 1, by rwa [Function.iterate_succ_apply, Option.bind_some, hnext]⟩

/-- Nothing comes after the end of a path. -/
theorem iterate_bind_none (d : Nat) : (Option.bind · next)^[d] none = none :=
  Function.iterate_fixed rfl d

/-- A search that also accepts one place more ends there, or as it did before. -/
theorem find?_or_eq [DecidableEq α] (p : α → Bool) (path : List α) :
    path.find? (fun x => decide (x = a) || p x) = some a ∨
      path.find? (fun x => decide (x = a) || p x) = path.find? p := by
  induction path with
  | nil => exact .inr rfl
  | cons x path ih =>
    by_cases hx : x = a
    · exact .inl (by simp [hx])
    · simp only [List.find?_cons, hx, decide_false, Bool.false_or]
      split
      · exact .inr rfl
      · exact ih

end Paths

namespace Store

variable {σ : Store} {e f o p : EnvId} {name : String} {n m : Token} {v : Value}

/-! ## Forests -/

/-- The environments are a forest: what encloses one is one of them, and going outwards comes to an
end. -/
structure Forest (σ : Store) : Prop where
  /-- What encloses an environment is in the store. -/
  parents : ∀ {e p : EnvId}, σ.parent? e = some p → σ.Has p
  /-- Going outwards comes to an end. -/
  ends : ∀ {e : EnvId}, σ.Has e → ∃ path, Leads σ.parent? e path

/-- The nearest environment from one outwards that holds a name, if there is one. -/
abbrev Owner (σ : Store) (name : String) : EnvId → Option EnvId → Prop :=
  Seeks σ.parent? (Option.guard (σ.holds · name))

/-- The search for a name gets to an environment: none before it on the way outwards holds the
name. -/
inductive Reaches (σ : Store) (name : String) : EnvId → EnvId → Prop where
  | here (e : EnvId) : Reaches σ name e e
  | further {e p o : EnvId} (h : σ.holds e name = false) (hp : σ.parent? e = some p)
      (rest : Reaches σ name p o) : Reaches σ name e o

/-- The environment that is `d` parents up. -/
def outward? (σ : Store) (e : EnvId) (d : Nat) : Option EnvId :=
  (Option.bind · σ.parent?)^[d] (some e)

/-- The store after an assignment: one that fails leaves it as it was. -/
def afterAssign (σ : Store) (e : EnvId) (name : Token) (v : Value) : Store :=
  (σ.assign e name v).toOption.getD σ

theorem forest_empty : ({} : Store).Forest where
  parents h := absurd (has_of_parent? h) (Nat.not_lt_zero _)
  ends h := absurd h (Nat.not_lt_zero _)

namespace Forest

/-- All that is met on the way outwards is in the store. -/
theorem has_of_mem (h : σ.Forest) {path : List EnvId} (hpath : Leads σ.parent? e path)
    (he : σ.Has e) : ∀ a ∈ path, σ.Has a := by
  induction hpath with
  | last => simpa using he
  | onward hnext _ ih => exact List.forall_mem_cons.2 ⟨he, ih (h.parents hnext)⟩

/-- The way outwards is no longer than the store is large. -/
theorem length_le (h : σ.Forest) {path : List EnvId} (hpath : Leads σ.parent? e path)
    (he : σ.Has e) : path.length ≤ σ.environments.size := by
  have hnodup : (path.map EnvId.index).Nodup := by
    refine List.Nodup.map ?_ hpath.nodup
    rintro ⟨i⟩ ⟨j⟩ (rfl : i = j)
    rfl
  have hsub : path.map EnvId.index ⊆ List.range σ.environments.size := by
    intro i hi
    obtain ⟨a, ha, rfl⟩ := List.mem_map.1 hi
    exact List.mem_range.2 (h.has_of_mem hpath he a ha)
  simpa using (List.subperm_of_subset hnodup hsub).length_le

end Forest

/-- As many environments as the way outwards has are all there are on it. -/
theorem chainWithin_of_leads {path : List EnvId} (h : Leads σ.parent? e path) {k : Nat}
    (hk : path.length ≤ k) : σ.chainWithin k e = path := by
  induction h generalizing k with
  | last hend =>
    obtain ⟨k, rfl⟩ := Nat.exists_eq_add_of_le' hk
    simp [chainWithin, hend]
  | onward hnext _ ih =>
    obtain ⟨k, rfl⟩ := Nat.exists_eq_add_of_le' (Nat.lt_of_lt_of_le (Nat.succ_pos _) hk)
    simp [chainWithin, hnext, ih (Nat.le_of_succ_le_succ hk)]

/-- The chain of an environment is all that encloses it. -/
theorem Forest.leads_chain (h : σ.Forest) (he : σ.Has e) : Leads σ.parent? e (σ.chain e) := by
  obtain ⟨path, hpath⟩ := h.ends he
  rwa [chain, chainWithin_of_leads hpath (h.length_le hpath he)]

/-- A linked store is a forest. -/
theorem Linked.forest (h : σ.Linked) : σ.Forest where
  parents hp := h.contains_of_refers (.parent hp)
  ends he := ⟨_, h.leads_chain he⟩

theorem parent?_define_eq : (σ.define e name v).parent? = σ.parent? :=
  funext fun a => parent?_define σ e a name v

@[simp] theorem chain_define : (σ.define o name v).chain e = σ.chain e := by
  have hwithin : ∀ k a, (σ.define o name v).chainWithin k a = σ.chainWithin k a := by
    intro k
    induction k with
    | zero => exact fun _ => rfl
    | succ k ih => exact fun a => by simp [chainWithin, ih]
  simp [chain, hwithin]

/-- Setting a variable leaves a forest. -/
theorem Forest.define (h : σ.Forest) : (σ.define e name v).Forest where
  parents hp := has_define.2 (h.parents (by simpa using hp))
  ends he := by
    rw [parent?_define_eq]
    exact h.ends (has_define.1 he)

/-- A new environment inside one of the store, or outside of all, leaves a forest. -/
theorem Forest.addEnvironment (h : σ.Forest) {parent : Option EnvId}
    (hparent : ∀ p ∈ parent, σ.Has p) : (σ.addEnvironment parent).2.Forest := by
  have hold : ∀ {a}, σ.Has a → (σ.addEnvironment parent).2.parent? a = σ.parent? a := fun ha =>
    parent?_addEnvironment_of_ne parent (ne_addEnvironment parent ha)
  have hgrow : ∀ {a}, σ.Has a → (σ.addEnvironment parent).2.Has a := by
    intro a ha
    simp only [Has, size_addEnvironment] at ha ⊢
    omega
  -- from an old environment the way outwards is the old one
  have hkept : ∀ {a path}, Leads σ.parent? a path → σ.Has a →
      Leads (σ.addEnvironment parent).2.parent? a path := by
    intro a path hpath ha
    induction hpath with
    | last hend => exact .last ((hold ha).trans hend)
    | onward hnext _ ih => exact .onward ((hold ha).trans hnext) (ih (h.parents hnext))
  -- an environment is the new one or an old one
  have hcases : ∀ {a}, (σ.addEnvironment parent).2.Has a →
      a = (σ.addEnvironment parent).1 ∨ σ.Has a := by
    rintro ⟨i⟩ ha
    simp only [Has, size_addEnvironment] at ha
    rcases Nat.lt_succ_iff_lt_or_eq.1 ha with hlt | rfl
    · exact .inr hlt
    · exact .inl rfl
  constructor
  · intro a p hp
    rcases hcases (has_of_parent? hp) with rfl | ha
    · rw [parent?_addEnvironment_self] at hp
      exact hgrow (hparent p hp)
    · exact hgrow (h.parents ((hold ha).symm.trans hp))
  · intro a ha
    rcases hcases ha with rfl | ha
    · cases parent with
      | none => exact ⟨_, .last (parent?_addEnvironment_self none)⟩
      | some p =>
        obtain ⟨path, hpath⟩ := h.ends (hparent p rfl)
        exact ⟨_, .onward (parent?_addEnvironment_self (some p)) (hkept hpath (hparent p rfl))⟩
    · obtain ⟨path, hpath⟩ := h.ends ha
      exact ⟨path, hkept hpath ha⟩

/-! ## Owners -/

/-- The search for a name ends at its owner. -/
theorem Forest.owner_iff (h : σ.Forest) (he : σ.Has e) (name : String) (r : Option EnvId) :
    σ.Owner name e r ↔ σ.owner? e name = r := by
  have hseeks : σ.Owner name e (σ.owner? e name) := by
    rw [owner?, List.find?_eq_findSome?_guard]
    exact (h.leads_chain he).seeks _
  exact ⟨hseeks.unique, fun hr => hr ▸ hseeks⟩

theorem holds_of_owner? (h : σ.owner? e name = some o) : σ.holds o name := by
  simpa using List.find?_some h

/-- What is read is the variable of the owner. -/
theorem get_of_owner? (h : σ.owner? e n.lexeme = some o) :
    ∃ w, σ.binding? o n.lexeme = some w ∧ σ.get e n = .ok w := by
  obtain ⟨w, hw, hbinding⟩ := valueIn_of_holds (holds_of_owner? h)
  exact ⟨w, hbinding, by simp [get, owner, h, hw]⟩

theorem get_of_owner?_none (h : σ.owner? e n.lexeme = none) :
    σ.get e n = .error (.atToken n (.undefinedVariable n.lexeme)) := by
  simp [get, owner, h]

theorem assign_of_owner? (h : σ.owner? e n.lexeme = some o) :
    σ.assign e n v = .ok (σ.define o n.lexeme v) := by
  simp [assign, owner, h]

theorem assign_of_owner?_none (h : σ.owner? e n.lexeme = none) :
    σ.assign e n v = .error (.atToken n (.undefinedVariable n.lexeme)) := by
  simp [assign, owner, h]

/-- Two stores in which a name has the same owner and that one the same variable are read alike. -/
theorem get_congr {τ : Store} (howner : τ.owner? f m.lexeme = σ.owner? f m.lexeme)
    (hbinding : ∀ o, σ.owner? f m.lexeme = some o →
      τ.binding? o m.lexeme = σ.binding? o m.lexeme) : τ.get f m = σ.get f m := by
  cases h : σ.owner? f m.lexeme with
  | none => rw [get_of_owner?_none h, get_of_owner?_none (howner.trans h)]
  | some o =>
    obtain ⟨w, hw, hget⟩ := get_of_owner? h
    obtain ⟨w', hw', hget'⟩ := get_of_owner? (howner.trans h)
    rw [hbinding o h, hw] at hw'
    rw [hget, hget', Option.some.inj hw']

/-- Setting a variable that is there already moves no owner. -/
theorem owner?_define_of_holds (h : σ.holds o name) (x : String) :
    (σ.define o name v).owner? f x = σ.owner? f x := by
  have hsame : ∀ a, (σ.define o name v).holds a x = σ.holds a x := by
    intro a
    rw [holds_define (has_of_holds h)]
    by_cases ha : a = o ∧ x = name
    · simp [ha, h]
    · simp [ha]
  simp [owner?, hsame]

/-- What is read after a variable of an owner has been set. -/
theorem get_define_owner (h : σ.holds o n.lexeme) :
    (σ.define o n.lexeme v).get f m =
      if m.lexeme = n.lexeme ∧ σ.owner? f n.lexeme = some o then .ok v else σ.get f m := by
  have hbinding : ∀ a, (σ.define o n.lexeme v).binding? a m.lexeme =
      if a = o ∧ m.lexeme = n.lexeme then some v else σ.binding? a m.lexeme :=
    fun _ => binding?_define (has_of_holds h)
  split
  · next hsame =>
    obtain ⟨hm, howner⟩ := hsame
    have howner' : (σ.define o n.lexeme v).owner? f m.lexeme = some o := by
      rw [owner?_define_of_holds h, hm, howner]
    obtain ⟨w, hw, hget⟩ := get_of_owner? howner'
    rw [hbinding, if_pos ⟨rfl, hm⟩] at hw
    rw [hget, ← Option.some.inj hw]
  · next hother =>
    refine get_congr (owner?_define_of_holds h _) fun p hp => ?_
    rw [hbinding, if_neg]
    rintro ⟨rfl, hm⟩
    exact hother ⟨hm, hm ▸ hp⟩

/-! ## New variables -/

/-- A search gets to an environment just if it would end there with the name put into it. -/
theorem reaches_iff (hσ : σ.Forest) (hf : σ.Has f) (he : σ.Has e) :
    σ.Reaches name f e ↔ (σ.define e name v).owner? f name = some e := by
  rw [← hσ.define.owner_iff (has_define.2 hf)]
  constructor
  · intro h
    induction h with
    | here e => exact .here (by simp [holds_define_self he])
    | @further a p e ha hp _ ih =>
      by_cases hae : a = e
      · subst hae
        exact .here (by simp [holds_define_self he])
      · exact .further (by simp [holds_define he, hae, ha]) ((parent?_define ..).trans hp)
          (ih (hσ.parents hp) he)
  · intro h
    generalize hr : some e = r at h
    induction h with
    | @here a b hlook =>
      obtain rfl := Option.some.inj hr
      obtain ⟨rfl, -⟩ := Option.guard_eq_some_iff.1 hlook
      exact .here _
    | nowhere => cases hr
    | @further a p r hlook hp _ ih =>
      rw [parent?_define] at hp
      have hnot : σ.holds a name = false := by
        simp only [Option.guard_eq_none_iff, holds_define he, Bool.or_eq_false_iff] at hlook
        exact hlook.2
      exact .further hnot hp (ih (hσ.parents hp) hr)

/-- What is read after a variable has been put into an environment, where the search for it gets
there and where it does not. -/
theorem get_define (hσ : σ.Forest) (hf : σ.Has f) (he : σ.Has e) :
    (m.lexeme = name ∧ σ.Reaches name f e → (σ.define e name v).get f m = .ok v) ∧
      (¬ (m.lexeme = name ∧ σ.Reaches name f e) →
        (σ.define e name v).get f m = σ.get f m) := by
  have hbinding : ∀ a, (σ.define e name v).binding? a m.lexeme =
      if a = e ∧ m.lexeme = name then some v else σ.binding? a m.lexeme :=
    fun _ => binding?_define he
  constructor
  · rintro ⟨rfl, hreach⟩
    obtain ⟨w, hw, hget⟩ := get_of_owner? ((reaches_iff hσ hf he).1 hreach)
    rw [hbinding, if_pos ⟨rfl, rfl⟩] at hw
    rw [hget, ← Option.some.inj hw]
  · intro hnot
    by_cases hm : m.lexeme = name
    · subst hm
      have hno : (σ.define e m.lexeme v).owner? f m.lexeme ≠ some e := fun h =>
        hnot ⟨rfl, (reaches_iff hσ hf he).2 h⟩
      -- the environment is the only place at which the search could end now and could not before
      have howner : (σ.define e m.lexeme v).owner? f m.lexeme = σ.owner? f m.lexeme := by
        have hfind := find?_or_eq (a := e) (σ.holds · m.lexeme) (σ.chain f)
        simp only [owner?, chain_define, holds_define he, and_true] at hno ⊢
        exact hfind.resolve_left hno
      refine get_congr howner fun p hp => ?_
      rw [hbinding, if_neg]
      rintro ⟨rfl, -⟩
      exact hno (howner.trans hp)
    · refine get_congr ?_ fun p _ => by rw [hbinding, if_neg fun h => hm h.2]
      simp [owner?, holds_define he, hm]

/-! ## Distances -/

/-- Going outwards step by step leads to the environment that is as many parents up. -/
theorem ancestor_of_outward? {d : Nat} (h : σ.outward? e d = some o) :
    σ.ancestor e d = .ok o := by
  induction d generalizing e with
  | zero =>
    cases h
    rfl
  | succ d ih =>
    rw [outward?, Function.iterate_succ_apply, Option.bind_some] at h
    cases hp : σ.parent? e with
    | none =>
      rw [hp, iterate_bind_none] at h
      cases h
    | some p =>
      rw [hp] at h
      simpa [ancestor, hp] using ih h

/-- At the distance of the owner a variable is read and written as by a search. -/
theorem distance_of_owner? {d : Nat} (howner : σ.owner? e n.lexeme = some o)
    (hd : σ.outward? e d = some o) :
    σ.getAt e d n.lexeme = σ.get e n ∧ σ.assignAt e d n.lexeme v = σ.assign e n v := by
  obtain ⟨w, hw, hget⟩ := get_of_owner? howner
  rw [hget, assign_of_owner? howner]
  simp [getAt, assignAt, ancestor_of_outward? hd, valueIn, hw]

/-- The owner is some number of parents up. -/
theorem Forest.exists_outward? (h : σ.Forest) (he : σ.Has e) (howner : σ.owner? e name = some o) :
    ∃ d, σ.outward? e d = some o :=
  (h.leads_chain he).exists_iterate (List.mem_of_find?_eq_some howner)

/-! ## Shared variables -/

/-- Variables are shared by the environments whose searches for them end at the same owner. -/
structure SharesVariables (σ : Store) : Prop where
  /-- The owner of a name is where the search for it ends. -/
  owner : ∀ e name r, σ.Has e → (σ.Owner name e r ↔ σ.owner? e name = r)
  /-- Reading fails just where nothing owns the name. -/
  get_fails : ∀ e n, σ.Has e → ((∃ a, σ.get e n = .error a) ↔ σ.owner? e n.lexeme = none)
  /-- So does assigning. -/
  assign_fails : ∀ e n v, σ.Has e →
    ((∃ a, σ.assign e n v = .error a) ↔ σ.owner? e n.lexeme = none)
  /-- Both tell that there is no such variable, and nothing changes. -/
  undefined : ∀ e n v, σ.Has e → σ.owner? e n.lexeme = none →
    σ.get e n = .error (.atToken n (.undefinedVariable n.lexeme)) ∧
      σ.assign e n v = .error (.atToken n (.undefinedVariable n.lexeme)) ∧
        σ.afterAssign e n v = σ
  /-- What is assigned is read where the owner is the same, and everything else is read as before. -/
  assigned : ∀ e f n m v, σ.Has e → σ.Has f → σ.owner? e n.lexeme ≠ none →
    (σ.afterAssign e n v).get f m =
      if m.lexeme = n.lexeme ∧ σ.owner? f n.lexeme = σ.owner? e n.lexeme then .ok v
      else σ.get f m
  /-- An assignment leaves a forest, and every owner where it was. -/
  settled : ∀ e f n v name, σ.Has e → σ.Has f → (σ.afterAssign e n v).Forest ∧
    (σ.afterAssign e n v).owner? f name = σ.owner? f name
  /-- The owner is some number of parents up. -/
  distance : ∀ e name o, σ.Has e → σ.owner? e name = some o → ∃ d, σ.outward? e d = some o
  /-- At that distance, reading and assigning come to the same as by a search. -/
  atDistance : ∀ e n v o d, σ.Has e → σ.owner? e n.lexeme = some o → σ.outward? e d = some o →
    σ.getAt e d n.lexeme = σ.get e n ∧ σ.assignAt e d n.lexeme v = σ.assign e n v
  /-- A new variable of an environment is found by the searches that get there. -/
  found : ∀ e f name v, σ.Has e → σ.Has f →
    (σ.Reaches name f e ↔ (σ.define e name v).owner? f name = some e)
  /-- These read it, and everything else is read as before. -/
  defined : ∀ e f m name v, σ.Has e → σ.Has f →
    (m.lexeme = name ∧ σ.Reaches name f e → (σ.define e name v).get f m = .ok v) ∧
      (¬ (m.lexeme = name ∧ σ.Reaches name f e) → (σ.define e name v).get f m = σ.get f m)

theorem afterAssign_of_owner? (h : σ.owner? e n.lexeme = some o) :
    σ.afterAssign e n v = σ.define o n.lexeme v := by
  rw [afterAssign, assign_of_owner? h]
  rfl

theorem afterAssign_of_owner?_none (h : σ.owner? e n.lexeme = none) :
    σ.afterAssign e n v = σ := by
  rw [afterAssign, assign_of_owner?_none h]
  rfl

/-- Every forest shares its variables. -/
theorem Forest.sharesVariables (h : σ.Forest) : σ.SharesVariables where
  owner _ name r he := h.owner_iff he name r
  get_fails e n _ := by
    cases howner : σ.owner? e n.lexeme with
    | none => simp [get_of_owner?_none howner]
    | some o =>
      obtain ⟨w, -, hget⟩ := get_of_owner? howner
      simp [hget]
  assign_fails e n v _ := by
    cases howner : σ.owner? e n.lexeme with
    | none => simp [assign_of_owner?_none howner]
    | some o => simp [assign_of_owner? howner]
  undefined _ _ _ _ hnone :=
    ⟨get_of_owner?_none hnone, assign_of_owner?_none hnone, afterAssign_of_owner?_none hnone⟩
  assigned e f n m v _ _ hsome := by
    obtain ⟨o, howner⟩ := Option.ne_none_iff_exists'.1 hsome
    rw [afterAssign_of_owner? howner, get_define_owner (holds_of_owner? howner), howner]
  settled e f n v name _ _ := by
    cases howner : σ.owner? e n.lexeme with
    | none =>
      rw [afterAssign_of_owner?_none howner]
      exact ⟨h, rfl⟩
    | some o =>
      rw [afterAssign_of_owner? howner]
      exact ⟨h.define, owner?_define_of_holds (holds_of_owner? howner) name⟩
  distance _ _ _ he howner := h.exists_outward? he howner
  atDistance _ _ _ _ _ _ howner hd := distance_of_owner? howner hd
  found _ _ _ _ he hf := reaches_iff h hf he
  defined _ _ _ _ _ he hf := get_define h hf he

/-- A variable of the globals, assigned through a block inside another one: it is read through the
globals and the other block, and not where a sibling hides it. -/
theorem sharesVariables_siblings :
    let outer := ((({} : Store).addEnvironment none).2.define ⟨0⟩ "x" .nil)
    let blocks := ((outer.addEnvironment (some ⟨0⟩)).2.addEnvironment (some ⟨0⟩)).2
    let σ := (blocks.define ⟨2⟩ "x" (.bool false)).addEnvironment (some ⟨1⟩) |>.2
    let x : Token := { kind := .identifier, lexeme := "x" }
    let τ := σ.afterAssign ⟨3⟩ x (.bool true)
    σ.Forest ∧ τ.get ⟨0⟩ x = .ok (.bool true) ∧ τ.get ⟨1⟩ x = .ok (.bool true) ∧
      τ.get ⟨2⟩ x = σ.get ⟨2⟩ x ∧ σ.getAt ⟨3⟩ 2 "x" = σ.get ⟨3⟩ x ∧
        (σ.define ⟨1⟩ "x" (.bool true)).get ⟨3⟩ x = .ok (.bool true) ∧
          (σ.define ⟨1⟩ "x" (.bool true)).get ⟨0⟩ x = σ.get ⟨0⟩ x := by
  intro outer blocks σ x τ
  have houter : outer.Forest := (forest_empty.addEnvironment (by simp)).define
  have hblocks : blocks.Forest :=
    (houter.addEnvironment (by simp [Has, outer])).addEnvironment (by simp [Has, outer])
  have hσ : σ.Forest := hblocks.define.addEnvironment (by simp [Has, blocks, outer])
  have hhas : ∀ i < 4, σ.Has ⟨i⟩ := fun i hi => by simpa [Has, σ, blocks, outer] using hi
  obtain ⟨howner, -, -, -, hassigned, -, -, hdistance, hfound, hdefined⟩ := hσ.sharesVariables
  have hhidden : ¬ σ.Reaches "x" ⟨0⟩ ⟨1⟩ := by
    rw [hfound ⟨1⟩ ⟨0⟩ "x" .nil (hhas 1 (by decide)) (hhas 0 (by decide))]
    decide
  have hreach : σ.Reaches "x" ⟨3⟩ ⟨1⟩ := .further (by decide) rfl (.here _)
  refine ⟨hσ, ?_, ?_, ?_, ?_, ?_, ?_⟩
  · rw [hassigned ⟨3⟩ ⟨0⟩ x x _ (hhas 3 (by decide)) (hhas 0 (by decide)) (by decide)]
    exact if_pos (by decide)
  · rw [hassigned ⟨3⟩ ⟨1⟩ x x _ (hhas 3 (by decide)) (hhas 1 (by decide)) (by decide)]
    exact if_pos (by decide)
  · rw [hassigned ⟨3⟩ ⟨2⟩ x x _ (hhas 3 (by decide)) (hhas 2 (by decide)) (by decide)]
    exact if_neg (by decide)
  · exact (hdistance ⟨3⟩ x .nil ⟨0⟩ 2 (hhas 3 (by decide)) (by decide) rfl).1
  · exact (hdefined ⟨1⟩ ⟨3⟩ x "x" _ (hhas 1 (by decide)) (hhas 3 (by decide))).1 ⟨rfl, hreach⟩
  · exact (hdefined ⟨1⟩ ⟨0⟩ x "x" _ (hhas 1 (by decide)) (hhas 0 (by decide))).2
      fun h => hhidden h.2

end Store

end Lox
