import Lox.Proofs.Scope.Twin
import Lox.Proofs.Store.Lookups
import Mathlib.Data.List.Find

/-!
# Twin stores

Two stores are twins if they hold the same objects under the same identities, up to the code of
functions, which is twin code, and up to the names of variables, which each environment may hold
under other names. What is looked up in twin stores corresponds, and what is added to both in the
same way keeps them twins.

## Main definitions

* `Pairing`, `Pairing.Lawful`: how the code and the variables of two stores correspond
* `Function.Twin`, `Store.Twin`: corresponding functions and stores
* `Abort.Twin`, `Except.Twin`: corresponding results of look-ups

## Main results

* `Store.Twin.binding?`, `Store.Twin.property` and their like: look-ups in twin stores
* `Store.Twin.define`, `Store.Twin.makeClass` and their like: changes of twin stores
-/

namespace Lox

/-- How the code and the variables of two stores correspond. -/
structure Pairing where
  /-- How code corresponds. -/
  likeness : Likeness Occurrence Occurrence
  /-- What the variables of an environment are called instead. -/
  rename : EnvId → String → String
  /-- What a token becomes where it names a variable. -/
  text : Token → String

namespace Pairing

/-- Different names stay different, and reserved words and all that is no variable stay as they
are. -/
structure Lawful (P : Pairing) : Prop where
  injective : ∀ e, (P.rename e).Injective
  word : ∀ e (k : Keyword), P.rename e k.text = k.text
  spells : P.likeness.Spells P.text

/-- Code that corresponds, with every variable keeping its name. -/
def keep (L : Likeness Occurrence Occurrence) : Pairing := ⟨L, fun _ => id, Token.lexeme⟩

theorem lawful_keep {L : Likeness Occurrence Occurrence} (hL : L.Spells Token.lexeme) :
    (keep L).Lawful :=
  ⟨fun _ => Function.injective_id, fun _ _ => rfl, hL⟩

end Pairing

/-- Functions with corresponding code and the same closure. -/
structure Function.Twin (L : Likeness Occurrence Occurrence) (fn fn' : Function) : Prop where
  decl : fn.decl.Twin L fn'.decl
  closure : fn'.closure = fn.closure
  isInitializer : fn'.isInitializer = fn.isInitializer

theorem Function.Twin.arity {L : Likeness Occurrence Occurrence} {fn fn' : Function}
    (h : fn.Twin L fn') : fn'.decl.arity = fn.decl.arity :=
  h.decl.params.length_eq.symm

/-- An environment whose variables are called otherwise. -/
def Environment.rename (f : String → String) (env : Environment) : Environment :=
  { env with values := env.values.rename f }

@[simp] theorem Environment.rename_id (env : Environment) : env.rename id = env := by
  simp [rename]

/-- The same objects, up to the code of functions and the names of variables. -/
structure Store.Twin (P : Pairing) (σ τ : Store) : Prop where
  environments : ∀ e, τ.environment? e = (σ.environment? e).map (·.rename (P.rename e))
  size : τ.environments.size = σ.environments.size
  functions : List.Forall₂ (Function.Twin P.likeness) σ.functions.toList τ.functions.toList
  classes : τ.classes = σ.classes
  instances : τ.instances = σ.instances

/-! ## Results -/

/-- What cuts two runs off in the same way: the tokens of an error correspond. -/
inductive Abort.Twin (P : Pairing) : Abort → Abort → Prop where
  | error {t t' : Token} (h : P.likeness.either t t') (cause : ErrorCause) :
      Twin P (.atToken t cause) (.atToken t' cause)
  | fault (f : Fault) : Twin P (.fault f) (.fault f)
  | missing (e : EnvId) (name : String) :
      Twin P (.fault (.missingName name)) (.fault (.missingName (P.rename e name)))
  | stackOverflow : Twin P .stackOverflow .stackOverflow

/-- Results that correspond, or what cuts two runs off in the same way. -/
inductive Except.Twin {α β : Type} (P : Pairing) (R : α → β → Prop) :
    Except Abort α → Except Abort β → Prop where
  | ok {a : α} {b : β} (h : R a b) : Twin P R (.ok a) (.ok b)
  | error {x y : Abort} (h : x.Twin P y) : Twin P R (.error x) (.error y)

theorem Function.Twin.imp {L L' : Likeness Occurrence Occurrence} {fn fn' : Function}
    (h : fn.Twin L fn') (hL : ∀ x, L.Within L' x) : fn.Twin L' fn' :=
  ⟨FunDecl.Twin.imp _ h.decl fun x _ => hL x, h.closure, h.isInitializer⟩

/-- Twins whose code corresponds in a further sense as well. -/
theorem Store.Twin.imp {L L' : Likeness Occurrence Occurrence} {σ τ : Store}
    (h : σ.Twin (.keep L) τ) (hL : ∀ x, L.Within L' x) : σ.Twin (.keep L') τ :=
  ⟨h.environments, h.size, h.functions.imp fun _ _ hfn => hfn.imp hL, h.classes, h.instances⟩

/-- Only a distance that leads too far has no environment. -/
theorem Store.ancestor_error {σ : Store} {e : EnvId} {d : Nat} {x : Abort}
    (h : σ.ancestor e d = .error x) : x = .fault .distanceTooFar := by
  induction d generalizing e with
  | zero => cases h
  | succ d ih =>
    simp only [ancestor] at h
    split at h
    · exact ih h
    · cases h
      rfl

theorem Store.mem_chain_of_owner {σ : Store} {e a : EnvId} {t : Token}
    (h : σ.owner e t = .ok a) : a ∈ σ.chain e := by
  unfold owner at h
  split at h
  · next hfind =>
    cases h
    exact List.mem_of_find?_eq_some hfind
  · cases h

namespace Store.Twin

variable {P : Pairing} {σ τ : Store} {e a : EnvId} {name : String} {t t' : Token}

/-! ## Environments -/

theorem parent? (h : σ.Twin P τ) (e : EnvId) : τ.parent? e = σ.parent? e := by
  unfold Store.parent?
  rw [h.environments]
  cases σ.environment? e <;> rfl

theorem binding? (hP : P.Lawful) (h : σ.Twin P τ) (e : EnvId) (name : String) :
    τ.binding? e (P.rename e name) = σ.binding? e name := by
  unfold Store.binding?
  rw [h.environments]
  cases σ.environment? e with
  | none => rfl
  | some env => exact Table.find?_rename (hP.injective e) env.values name

theorem holds (hP : P.Lawful) (h : σ.Twin P τ) (e : EnvId) (name : String) :
    τ.holds e (P.rename e name) = σ.holds e name := by
  rw [Store.holds, Store.holds, h.binding? hP]

theorem chain (h : σ.Twin P τ) (e : EnvId) : τ.chain e = σ.chain e := by
  have hwithin : ∀ n e, τ.chainWithin n e = σ.chainWithin n e := by
    intro n
    induction n with
    | zero => exact fun _ => rfl
    | succ n ih =>
      intro e
      simp only [chainWithin, h.parent?, ih]
  rw [Store.chain, Store.chain, h.size, hwithin]

theorem ancestor (h : σ.Twin P τ) (e : EnvId) (d : Nat) : τ.ancestor e d = σ.ancestor e d := by
  induction d generalizing e with
  | zero => rfl
  | succ d ih =>
    simp only [Store.ancestor, h.parent?, ih]

theorem valueIn (hP : P.Lawful) (h : σ.Twin P τ) (e : EnvId) (name : String) :
    Except.Twin P Eq (σ.valueIn e name) (τ.valueIn e (P.rename e name)) := by
  unfold Store.valueIn
  rw [h.binding? hP]
  cases σ.binding? e name with
  | none => exact .error (.missing e name)
  | some v => exact .ok rfl

/-- A variable at a distance, under what it is called there. -/
theorem getAt (hP : P.Lawful) (h : σ.Twin P τ) {d : Nat} {name' : String}
    (hname : ∀ a, σ.ancestor e d = .ok a → name' = P.rename a name) :
    Except.Twin P Eq (σ.getAt e d name) (τ.getAt e d name') := by
  unfold Store.getAt
  rw [h.ancestor]
  cases ha : σ.ancestor e d with
  | error x =>
    rw [ancestor_error ha]
    exact .error (.fault _)
  | ok a =>
    rw [hname a ha]
    exact h.valueIn hP a name

/-- A search for a name that is called the same all along the chain. -/
theorem owner (hP : P.Lawful) (h : σ.Twin P τ) (ht : P.likeness.either t t')
    (htext : t'.lexeme = t.lexeme)
    (hname : ∀ a ∈ σ.chain e, P.rename a t.lexeme = t.lexeme) :
    Except.Twin P Eq (σ.owner e t) (τ.owner e t') := by
  have hfind : τ.owner? e t.lexeme = σ.owner? e t.lexeme := by
    unfold Store.owner?
    rw [h.chain]
    refine List.find?_congr fun a ha => ?_
    rw [← h.holds hP, hname a ha]
  unfold Store.owner
  rw [htext, hfind]
  cases σ.owner? e t.lexeme with
  | none => exact .error (.error ht _)
  | some a => exact .ok rfl

theorem get (hP : P.Lawful) (h : σ.Twin P τ) (ht : P.likeness.either t t')
    (htext : t'.lexeme = t.lexeme)
    (hname : ∀ a ∈ σ.chain e, P.rename a t.lexeme = t.lexeme) :
    Except.Twin P Eq (σ.get e t) (τ.get e t') := by
  have howner := h.owner hP ht htext hname
  unfold Store.get
  generalize hσ : σ.owner e t = x, τ.owner e t' = y at howner
  cases howner with
  | error hx => exact .error hx
  | @ok a _ ha =>
    subst ha
    have hvalue := h.valueIn hP a t.lexeme
    rw [hname a (mem_chain_of_owner hσ)] at hvalue
    rw [htext]
    exact hvalue

/-! ## Functions and classes -/

theorem function? (h : σ.Twin P τ) (f : FunId) :
    Option.Rel (Function.Twin P.likeness) (σ.function? f) (τ.function? f) := by
  have hget := h.functions.getElem? f.index
  rwa [Array.getElem?_toList, Array.getElem?_toList] at hget

theorem function (h : σ.Twin P τ) (f : FunId) :
    Except.Twin P (Function.Twin P.likeness) (σ.function f) (τ.function f) := by
  have hf := h.function? f
  unfold Store.function
  generalize σ.function? f = x, τ.function? f = y at hf
  cases hf with
  | none => exact .error (.fault _)
  | some hf => exact .ok hf

theorem class? (h : σ.Twin P τ) : τ.class? = σ.class? := by
  funext c
  rw [Store.class?, h.classes]
  rfl

theorem className (h : σ.Twin P τ) : τ.className = σ.className := by
  funext c
  rw [Store.className, h.class?]
  rfl

theorem instance? (h : σ.Twin P τ) : τ.instance? = σ.instance? := by
  funext i
  rw [Store.instance?, h.instances]
  rfl

theorem lineage (h : σ.Twin P τ) (c : ClassId) : τ.lineage c = σ.lineage c := by
  have hwithin : ∀ n c, τ.lineageWithin n c = σ.lineageWithin n c := by
    intro n
    induction n with
    | zero => exact fun _ => rfl
    | succ n ih =>
      intro c
      simp only [lineageWithin, superclass?, h.class?, ih]
  rw [Store.lineage, Store.lineage, h.classes, hwithin]

theorem findMethod? (h : σ.Twin P τ) (c : ClassId) (name : String) :
    τ.findMethod? c name = σ.findMethod? c name := by
  simp only [Store.findMethod?, h.lineage, ownMethod?, h.class?]

theorem findStatic? (h : σ.Twin P τ) (c : ClassId) (name : String) :
    τ.findStatic? c name = σ.findStatic? c name := by
  simp only [Store.findStatic?, h.lineage, ownStatic?, h.class?]

theorem functionName (hP : P.Lawful) (h : σ.Twin P τ) (f : FunId) :
    τ.functionName f = σ.functionName f := by
  have hf := h.function? f
  unfold Store.functionName
  generalize σ.function? f = x, τ.function? f = y at hf
  cases hf with
  | none => rfl
  | some hf => exact hP.spells.token hf.decl.name

/-- Twin stores show the same of a value. -/
theorem text (hP : P.Lawful) (h : σ.Twin P τ) (v : Value) : τ.text v = σ.text v := by
  unfold Store.text
  simp only [h.functionName hP, h.className, instanceClassName, h.instance?]

end Store.Twin

/-! ## Properties -/

/-- The same field, or methods with corresponding code for the same receiver. -/
inductive Store.Property.Twin (L : Likeness Occurrence Occurrence) :
    Store.Property → Store.Property → Prop where
  | field (v : Value) : Twin L (.field v) (.field v)
  | method {fn fn' : Function} (h : fn.Twin L fn') (v : Value) :
      Twin L (.method fn v) (.method fn' v)

namespace Store.Twin

variable {P : Pairing} {σ τ : Store} {e a : EnvId} {name : String} {t t' : Token}

theorem methodFor (hP : P.Lawful) (h : σ.Twin P τ) (ht : P.likeness.token t t')
    (found : Option FunId) (v : Value) :
    Except.Twin P (Property.Twin P.likeness) (σ.methodFor found v t)
      (τ.methodFor found v t') := by
  cases found with
  | none =>
    simp only [Store.methodFor, hP.spells.token ht]
    exact .error (.error (.inl ht) _)
  | some f =>
    have hf := h.function f
    simp only [Store.methodFor]
    generalize σ.function f = x, τ.function f = y at hf
    cases hf with
    | error hx => exact .error hx
    | ok hf => exact .ok (.method hf v)

theorem property (hP : P.Lawful) (h : σ.Twin P τ) (ht : P.likeness.token t t') (v : Value) :
    Except.Twin P (Property.Twin P.likeness) (σ.property v t) (τ.property v t') := by
  cases v with
  | «instance» i =>
    simp only [Store.property, field?, instanceMethod?, h.instance?, h.findMethod?,
      hP.spells.token ht]
    split
    · exact .ok (.field _)
    · exact h.methodFor hP ht _ _
  | «class» c =>
    simp only [Store.property, h.findStatic?, hP.spells.token ht]
    exact h.methodFor hP ht _ _
  | _ => exact .error (.error (.inl ht) _)

theorem methodAbove (hP : P.Lawful) (h : σ.Twin P τ) (ht : P.likeness.token t t')
    (superclass receiver : Value) :
    Except.Twin P (Property.Twin P.likeness) (σ.methodAbove superclass receiver t)
      (τ.methodAbove superclass receiver t') := by
  unfold Store.methodAbove
  split
  · rw [h.findStatic?, hP.spells.token ht]
    exact h.methodFor hP ht _ _
  · rw [h.findMethod?, hP.spells.token ht]
    exact h.methodFor hP ht _ _
  · exact .error (.fault _)

theorem superMethod (hP : P.Lawful) (h : σ.Twin P τ) (ht : P.likeness.token t t') (d : Nat) :
    Except.Twin P (Property.Twin P.likeness) (σ.superMethod e d t) (τ.superMethod e d t') := by
  have hsuper : Except.Twin P Eq (σ.getAt e d "super") (τ.getAt e d "super") :=
    h.getAt hP fun a _ => (hP.word a .superWord).symm
  have hthis : Except.Twin P Eq (σ.getAt e (d - 1) "this") (τ.getAt e (d - 1) "this") :=
    h.getAt hP fun a _ => (hP.word a .thisWord).symm
  unfold Store.superMethod
  generalize σ.getAt e d "super" = x, τ.getAt e d "super" = y at hsuper
  generalize σ.getAt e (d - 1) "this" = u, τ.getAt e (d - 1) "this" = w at hthis
  cases hsuper with
  | error hx => exact .error hx
  | ok hx =>
    subst hx
    cases hthis with
    | error hu => exact .error hu
    | ok hu =>
      subst hu
      exact h.methodAbove hP ht _ _

/-! ## Changes -/

theorem define (hP : P.Lawful) (h : σ.Twin P τ) (e : EnvId) (name : String) (v : Value) :
    (σ.define e name v).Twin P (τ.define e (P.rename e name) v) where
  environments a := by
    rw [environment?_define, environment?_define, h.environments]
    by_cases ha : a = e
    · subst ha
      rw [if_pos rfl, if_pos rfl]
      cases σ.environment? a with
      | none => rfl
      | some env =>
        simp only [Option.map_some, Environment.rename,
          Table.rename_set (hP.injective a)]
    · rw [if_neg ha, if_neg ha]
  size := by rw [size_define, size_define, h.size]
  functions := h.functions
  classes := h.classes
  instances := h.instances

/-- A reserved word is set. -/
theorem defineWord (hP : P.Lawful) (h : σ.Twin P τ) (e : EnvId) (k : Keyword) (v : Value) :
    (σ.define e k.text v).Twin P (τ.define e k.text v) := by
  have hdefine := h.define hP e k.text v
  rwa [hP.word] at hdefine

theorem addEnvironment (h : σ.Twin P τ) (p : Option EnvId) :
    (τ.addEnvironment p).1 = (σ.addEnvironment p).1 ∧
      (σ.addEnvironment p).2.Twin P (τ.addEnvironment p).2 := by
  have hnew : (τ.addEnvironment p).1 = (σ.addEnvironment p).1 := by
    simp [Store.addEnvironment, h.size]
  refine ⟨hnew, fun e => ?_, by simp [h.size], h.functions, h.classes, h.instances⟩
  by_cases he : e = (σ.addEnvironment p).1
  · rw [he, environment?_addEnvironment_self, ← hnew, environment?_addEnvironment_self]
    rfl
  · rw [environment?_addEnvironment_of_ne σ p he,
      environment?_addEnvironment_of_ne τ p (hnew ▸ he), h.environments]

theorem addFunction (h : σ.Twin P τ) {fn fn' : Function} (hfn : fn.Twin P.likeness fn') :
    (τ.addFunction fn').1 = (σ.addFunction fn).1 ∧
      (σ.addFunction fn).2.Twin P (τ.addFunction fn').2 := by
  have hsize : τ.functions.size = σ.functions.size := by simpa using h.functions.length_eq.symm
  refine ⟨by simp [Store.addFunction, hsize], h.environments, h.size, ?_, h.classes, h.instances⟩
  simp only [Store.addFunction, Array.toList_push]
  exact List.rel_append h.functions (.cons hfn .nil)

theorem addClass (h : σ.Twin P τ) (c : Class) :
    (τ.addClass c).1 = (σ.addClass c).1 ∧ (σ.addClass c).2.Twin P (τ.addClass c).2 :=
  ⟨by simp [Store.addClass, h.classes], h.environments, h.size, h.functions,
    by simp [Store.addClass, h.classes], h.instances⟩

theorem addInstance (h : σ.Twin P τ) (c : ClassId) :
    (τ.addInstance c).1 = (σ.addInstance c).1 ∧ (σ.addInstance c).2.Twin P (τ.addInstance c).2 :=
  ⟨by simp [Store.addInstance, h.instances], h.environments, h.size, h.functions, h.classes,
    by simp [Store.addInstance, h.instances]⟩

theorem setField (h : σ.Twin P τ) (i : InstanceId) (name : String) (v : Value) :
    (σ.setField i name v).Twin P (τ.setField i name v) :=
  ⟨h.environments, h.size, h.functions, h.classes, by simp [Store.setField, h.instances]⟩

/-- Variables are set under what they are called in an environment. -/
theorem defineAll (hP : P.Lawful) (h : σ.Twin P τ) (e : EnvId) {ps ps' : List Token}
    (hps : List.Forall₂ (fun t t' => t'.lexeme = P.rename e t.lexeme) ps ps')
    (vs : List Value) :
    (σ.defineAll e ((ps.map (·.lexeme)).zip vs)).Twin P
      (τ.defineAll e ((ps'.map (·.lexeme)).zip vs)) := by
  induction hps generalizing σ τ vs with
  | nil => exact h
  | cons hp _ ih =>
    cases vs with
    | nil => exact h
    | cons v vs =>
      simp only [List.map_cons, List.zip_cons_cons, Store.defineAll, hp]
      exact ih (h.define hP e _ v) vs

theorem copyFor (hP : P.Lawful) (h : σ.Twin P τ) {fn fn' : Function}
    (hfn : fn.Twin P.likeness fn') (v : Value) :
    (σ.copyFor fn v).1.Twin P.likeness (τ.copyFor fn' v).1 ∧
      (σ.copyFor fn v).2.Twin P (τ.copyFor fn' v).2 := by
  obtain ⟨hnew, hadd⟩ := h.addEnvironment (some fn.closure)
  simp only [Store.copyFor, hfn.closure]
  rw [hnew]
  exact ⟨⟨hfn.decl, rfl, hfn.isInitializer⟩, hadd.defineWord hP _ .thisWord v⟩

theorem realize (hP : P.Lawful) (h : σ.Twin P τ) {p p' : Property}
    (hp : p.Twin P.likeness p') :
    (τ.realize p').1 = (σ.realize p).1 ∧ (σ.realize p).2.Twin P (τ.realize p').2 := by
  cases hp with
  | field v => exact ⟨rfl, h⟩
  | method hfn v =>
    obtain ⟨hcopy, hstore⟩ := h.copyFor hP hfn v
    obtain ⟨hnew, hadd⟩ := hstore.addFunction hcopy
    exact ⟨congrArg Value.function hnew, hadd⟩

/-! ## Declarations -/

theorem addMethods (hP : P.Lawful) (h : σ.Twin P τ) (initializers : Bool) (table : Table FunId)
    {ds ds' : List (FunDecl Occurrence)} (hds : List.Forall₂ (FunDecl.Twin P.likeness) ds ds') :
    (τ.addMethods e initializers table ds').1 = (σ.addMethods e initializers table ds).1 ∧
      (σ.addMethods e initializers table ds).2.Twin P
        (τ.addMethods e initializers table ds').2 := by
  induction hds generalizing σ τ table with
  | nil => exact ⟨rfl, h⟩
  | @cons d d' _ _ hd _ ih =>
    have hfn : Function.Twin P.likeness
        { decl := d, closure := e, isInitializer := initializers && d.isInitName }
        { decl := d', closure := e, isInitializer := initializers && d'.isInitName } :=
      ⟨hd, rfl, by rw [hd.isInitName hP.spells]⟩
    obtain ⟨hnew, hadd⟩ := h.addFunction hfn
    simp only [Store.addMethods]
    rw [hnew, hP.spells.token hd.name]
    exact ih hadd _

theorem enterClass (hP : P.Lawful) (h : σ.Twin P τ) (e : EnvId) (c : Option ClassId) :
    (τ.enterClass e c).1 = (σ.enterClass e c).1 ∧
      (σ.enterClass e c).2.Twin P (τ.enterClass e c).2 := by
  cases c with
  | none => exact ⟨rfl, h⟩
  | some c =>
    obtain ⟨hnew, hadd⟩ := h.addEnvironment (some e)
    simp only [Store.enterClass]
    rw [hnew]
    exact ⟨rfl, hadd.defineWord hP _ .superWord _⟩

theorem makeClass (hP : P.Lawful) (h : σ.Twin P τ) (e : EnvId) (name : String)
    (superclass : Option ClassId) {ss ss' ms ms' : List (FunDecl Occurrence)}
    (hs : List.Forall₂ (FunDecl.Twin P.likeness) ss ss')
    (hm : List.Forall₂ (FunDecl.Twin P.likeness) ms ms') :
    (τ.makeClass e name superclass ss' ms').1 = (σ.makeClass e name superclass ss ms).1 ∧
      (σ.makeClass e name superclass ss ms).2.Twin P
        (τ.makeClass e name superclass ss' ms').2 := by
  obtain ⟨hinner, hin⟩ := h.enterClass hP e superclass
  obtain ⟨hmethods, hms⟩ := hin.addMethods (e := (σ.enterClass e superclass).1) hP true .empty hm
  obtain ⟨hstatics, hss⟩ := hms.addMethods (e := (σ.enterClass e superclass).1) hP false .empty hs
  simp only [Store.makeClass]
  rw [hinner, hmethods, hstatics]
  exact hss.addClass _

end Store.Twin

end Lox
