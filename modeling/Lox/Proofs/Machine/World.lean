import Lox.Machine.State
import Lox.Proofs.Scope.Survey
import Lox.Proofs.Store.Lookups

/-!
# Environments and scopes

Every environment was made for something: for the execution of a block, for a call, for the
receiver of a method or for a superclass. A world keeps a store together with what each of its
environments was made for and with the places of the programs that were run. A chain of
environments mirrors scopes if each environment was made for the opener of its scope and holds
the names of the scope whose initializers have ended.

## Main definitions

* `Origin`, `Origin.For`: what an environment was made for
* `World`, `World.Extends`
* `World.Mirrors`: a chain of environments mirrors the open scopes
* `Function.Fits`, `Function.FitsMethod`, `Value.Fits`: what functions and values rely on
* `World.Sound`: what holds of every store of a session

## Main results

* `World.Mirrors.getAt`: a recorded distance leads to an environment that holds the name
* `World.Mirrors.extend`, `Value.Fits.extend`: changes of the store keep this
-/

namespace Lox

/-- What an environment was made for. -/
inductive Origin where
  /-- The session. -/
  | globals
  /-- An execution of a block. -/
  | block (body : List Code)
  /-- A call of a function. -/
  | call (fn : Function) (arguments : List Value)
  /-- The receiver of a method. -/
  | receiver (method : FunDecl Occurrence)
  /-- A class with a superclass. -/
  | superclass (m : Members)

namespace Origin

/-- The origins of environments that are made for the scopes of an opener. -/
def For : Origin → Opener → Prop
  | block body, .block body' => body = body'
  | call fn _, .function decl => fn.decl = decl
  | receiver f, .receiver m => f ∈ m.statics ∨ f ∈ m.methods
  | superclass m, .superclass m' => m = m'
  | _, _ => False

/-- The names that an environment may hold; the globals may hold any. -/
def names? : Origin → Option (List String)
  | globals => none
  | block body => some (Opener.block body).names
  | call fn _ => some (Opener.function fn.decl).names
  | receiver _ => some [Keyword.thisWord.text]
  | superclass _ => some [Keyword.superWord.text]

/-- Whether an environment may hold a name. -/
def Allows (o : Origin) (name : String) : Prop := ∀ ns ∈ o.names?, name ∈ ns

theorem For.names? {o : Origin} {opener : Opener} (h : o.For opener) :
    o.names? = some opener.names := by
  cases o <;> cases opener <;> simp_all [For, Origin.names?, Opener.names]

theorem For.allows_iff {o : Origin} {opener : Opener} (h : o.For opener) {name : String} :
    o.Allows name ↔ name ∈ opener.names := by
  simp [Allows, h.names?]

/-- A call has as many arguments as the function has parameters, and an initializer that is called
has a receiver. -/
def Met (o : Origin) (σ : Store) : Prop :=
  match o with
  | call fn arguments => arguments.length = fn.decl.arity ∧
      (fn.isInitializer → σ.holds fn.closure Keyword.thisWord.text)
  | _ => True

theorem Met.extend {o : Origin} {σ τ : Store} (h : o.Met σ) (hσ : σ.Extends τ) : o.Met τ := by
  cases o with
  | call fn arguments => exact ⟨h.1, fun hi => hσ.names (h.2 hi)⟩
  | _ => trivial

end Origin

/-- A store with what its environments were made for, and the places of the programs that were
run. -/
structure World where
  /-- The places. -/
  sites : Site → Prop
  /-- The store. -/
  store : Store
  /-- What each environment was made for, in the order of their identities. -/
  origins : List Origin

namespace World

variable {w w' : World} {e : EnvId} {scopes : List Scope} {openers : List Opener} {name : String}

/-- What an environment was made for. -/
def origin? (w : World) (e : EnvId) : Option Origin := w.origins[e.index]?

/-- One world comes from another as programs are accepted and run. -/
structure Extends (w w' : World) : Prop where
  /-- The places of earlier programs are kept. -/
  sites : ∀ {p : Site}, w.sites p → w'.sites p
  /-- The objects are kept. -/
  store : w.store.Extends w'.store
  /-- What environments were made for does not change. -/
  origins : w.origins <+: w'.origins

namespace Extends

theorem refl (w : World) : w.Extends w := ⟨id, .refl _, List.prefix_refl _⟩

theorem trans {w'' : World} (h : w.Extends w') (h' : w'.Extends w'') : w.Extends w'' :=
  ⟨h'.sites ∘ h.sites, h.store.trans h'.store, h.origins.trans h'.origins⟩

theorem origin? (h : w.Extends w') {o : Origin} (ho : w.origin? e = some o) :
    w'.origin? e = some o := by
  obtain ⟨new, hnew⟩ := h.origins
  unfold World.origin? at ho ⊢
  rw [← hnew, List.getElem?_append_left (List.getElem?_eq_some_iff.1 ho).1, ho]

end Extends

/-- A chain of environments up to the globals mirrors scopes with their openers. -/
inductive Mirrors (w : World) : EnvId → List Scope → List Opener → Prop where
  /-- Outside every scope stand the globals. -/
  | globals : Mirrors w Store.globals [] []
  /-- An environment was made for its scope and holds the names that have ended. -/
  | inside {e p : EnvId} {o : Origin} {scope : Scope} {scopes : List Scope} {opener : Opener}
      {openers : List Opener} (ho : w.origin? e = some o) (hfor : o.For opener)
      (hnames : ∀ n, scope.find? n = some true → w.store.holds e n)
      (hparent : w.store.parent? e = some p) (outer : Mirrors w p scopes openers) :
      Mirrors w e (scope :: scopes) (opener :: openers)

namespace Mirrors

/-- Outside every scope there are the globals only. -/
theorem eq_globals (h : w.Mirrors e scopes []) : e = Store.globals := by
  cases h
  rfl

theorem extend (h : w.Mirrors e scopes openers) (hw : w.Extends w') :
    w'.Mirrors e scopes openers := by
  induction h with
  | globals => exact .globals
  | inside ho hfor hnames hparent _ ih =>
    exact .inside (hw.origin? ho) hfor (fun n hn => hw.store.names (hnames n hn))
      (hw.store.parents hparent) ih

/-- The chain has one environment for each scope. -/
theorem length_eq (h : w.Mirrors e scopes openers) : scopes.length = openers.length := by
  induction h with
  | globals => rfl
  | inside _ _ _ _ _ ih => simp [ih]

/-- A distance inside the scopes leads along the chain. -/
theorem ancestor (h : w.Mirrors e scopes openers) {d : Nat} (hd : d ≤ scopes.length) :
    ∃ a, w.store.ancestor e d = .ok a ∧ w.Mirrors a (scopes.drop d) (openers.drop d) := by
  induction d generalizing e scopes openers with
  | zero => exact ⟨e, rfl, h⟩
  | succ d ih =>
    cases h with
    | globals => simp at hd
    | inside ho hfor hnames hparent outer =>
      obtain ⟨a, ha, hm⟩ := ih outer (by simpa using hd)
      exact ⟨a, by rw [Store.ancestor, hparent]; exact ha, hm⟩

/-- A name of a scope that has ended is found at its distance. -/
theorem getAt (h : w.Mirrors e scopes openers) {d : Nat}
    (hfind : (scopes[d]?).bind (·.find? name) = some true) :
    ∃ a v, w.store.ancestor e d = .ok a ∧ w.store.binding? a name = some v ∧
      w.store.getAt e d name = .ok v := by
  obtain ⟨scope, hscope, hn⟩ := Option.bind_eq_some_iff.1 hfind
  obtain ⟨hd, -⟩ := List.getElem?_eq_some_iff.1 hscope
  obtain ⟨a, ha, hm⟩ := h.ancestor (Nat.le_of_lt hd)
  have hdrop : (scopes.drop d)[0]? = some scope := by simpa using hscope
  generalize scopes.drop d = inner, openers.drop d = innerOpeners at hm hdrop
  cases hm with
  | globals => simp at hdrop
  | inside _ _ hnames =>
    obtain rfl := by simpa using hdrop
    obtain ⟨v, hv, hbinding⟩ := Store.valueIn_of_holds (hnames name hn)
    exact ⟨a, v, ha, hbinding, by simp [Store.getAt, ha, hv]⟩

end Mirrors

end World

/-! ## Functions and values -/

/-- A function that can be called: its environment mirrors the scopes around its declaration. -/
structure Function.Fits (fn : Function) (w : World) : Prop where
  /-- The place of the declaration. -/
  site : ∃ kind c openers, w.sites ⟨c, openers, .function kind fn.decl⟩ ∧
    w.Mirrors fn.closure c.scopes openers
  /-- An initializer has a receiver. -/
  receiver : fn.isInitializer → w.store.holds fn.closure Keyword.thisWord.text

/-- A method without a receiver: its environment mirrors the scopes around its class. -/
def Function.FitsMethod (fn : Function) (w : World) : Prop :=
  ∃ kind c scopes m openers, w.sites ⟨c, .receiver m :: openers, .function kind fn.decl⟩ ∧
    c.scopes = Table.empty.set Keyword.thisWord.text true :: scopes ∧
    (fn.decl ∈ m.statics ∨ fn.decl ∈ m.methods) ∧ w.Mirrors fn.closure scopes openers

/-- A value that is no function or a function that can be called. -/
def Value.Fits (v : Value) (w : World) : Prop :=
  ∀ f, v = .function f → ∃ fn, w.store.function? f = some fn ∧ fn.Fits w

section Extend

variable {w w' : World} {fn : Function} {v : Value}

theorem Function.Fits.extend (h : fn.Fits w) (hw : w.Extends w') : fn.Fits w' := by
  obtain ⟨kind, c, openers, hsite, hm⟩ := h.site
  exact ⟨⟨kind, c, openers, hw.sites hsite, hm.extend hw⟩, fun hi => hw.store.names (h.receiver hi)⟩

theorem Function.FitsMethod.extend (h : fn.FitsMethod w) (hw : w.Extends w') :
    fn.FitsMethod w' := by
  obtain ⟨kind, c, scopes, m, openers, hsite, hscopes, hmem, hm⟩ := h
  exact ⟨kind, c, scopes, m, openers, hw.sites hsite, hscopes, hmem, hm.extend hw⟩

theorem Value.Fits.extend (h : v.Fits w) (hw : w.Extends w') : v.Fits w' := by
  intro f hf
  obtain ⟨fn, hfn, hfits⟩ := h f hf
  exact ⟨fn, hw.store.functions hfn, hfits.extend hw⟩

end Extend

/-! ## Stores -/

namespace World

/-- A table of methods without receivers. -/
def HasMethods (w : World) (table : Table FunId) : Prop :=
  ∀ n f, table.find? n = some f → ∃ fn, w.store.function? f = some fn ∧
    fn.FitsMethod w

theorem HasMethods.extend {w w' : World} {table : Table FunId} (h : w.HasMethods table)
    (hw : w.Extends w') : w'.HasMethods table := by
  intro n f hf
  obtain ⟨fn, hfn, hfits⟩ := h n f hf
  exact ⟨fn, hw.store.functions hfn, hfits.extend hw⟩

/-- What holds of every store of a session. -/
structure Sound (w : World) : Prop where
  /-- Every environment has an origin. -/
  length : w.origins.length = w.store.environments.size
  /-- Functions were called with the right numbers of arguments. -/
  met : ∀ o ∈ w.origins, o.Met w.store
  /-- The first environment is the globals. -/
  globals : w.origin? Store.globals = some .globals
  /-- The globals are outermost. -/
  outermost : w.store.parent? Store.globals = none
  /-- An environment is inside an earlier one. -/
  parents : ∀ {e p : EnvId}, w.store.parent? e = some p → p.index < e.index
  /-- An environment holds names that its origin allows. -/
  names : ∀ {e : EnvId} {n : String} {o : Origin}, w.store.holds e n → w.origin? e = some o →
    o.Allows n
  /-- Variables have values that fit. -/
  values : ∀ {e : EnvId} {n : String} {v : Value}, w.store.binding? e n = some v → v.Fits w
  /-- `super` stands for a class. -/
  super : ∀ {e : EnvId} {v : Value}, w.store.binding? e Keyword.superWord.text = some v →
    ∃ c, v = .class c
  /-- The tables of classes hold methods. -/
  methods : ∀ {c : ClassId} {cls : Class}, w.store.class? c = some cls →
    w.HasMethods cls.methods ∧ w.HasMethods cls.statics
  /-- Fields have values that fit. -/
  fields : ∀ {i : InstanceId} {n : String} {v : Value}, w.store.field? i n = some v → v.Fits w

end World

end Lox
