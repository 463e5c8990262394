import Lox.Proofs.Machine.Receivers
import Lox.Proofs.Scope.Returns

/-!
# Where functions come from

A function of the store was declared: by a declaration of its own, or as a method of a class. A
method that gets a receiver is a copy, which keeps the declaration and whether it is an
initializer. So whatever holds of all declarations of a program holds of the functions that are
made when it is run. What a class has under the name of an initializer is an initializer, as the
resolver takes it for one.

## Main definitions

* `Stmt.Declares`, `Control.Declares`: the functions that a statement, and a step, declares
* `Store.Renews`: the functions of a store are those of another, copies and new ones
* `Store.Initializes`: the classes of a store have initializers under the name of one
* `Function.DeclaredIn`: functions of the programs

## Main results

* `Config.renews_step`: the functions and the classes after a step
* `Config.functions_after`, `Config.functions_run`: what declarations have in common, functions
  have
* `Config.initializes_step`: initializers
* `Control.Fits.declaredIn`: what a step declares is a function of the programs
-/

namespace Lox

/-- The functions that a statement itself declares. -/
def Stmt.Declares (s : Code) (fn : Function) : Prop :=
  match s with
  | .function decl => fn.decl = decl ∧ fn.isInitializer = false
  | .class _ _ statics methods =>
    (fn.decl ∈ methods ∧ fn.isInitializer = fn.decl.isInitName) ∨
      (fn.decl ∈ statics ∧ fn.isInitializer = false)
  | _ => False

/-- The functions that a step may declare. -/
def Control.Declares (c : Control) (fn : Function) : Prop :=
  match c with
  | .execute s _ => s.Declares fn
  | .deliver _ (.inherit _ name statics methods _) =>
    (Stmt.class name none statics methods : Code).Declares fn
  | _ => False

/-- Two functions of one declaration, called in one way. -/
def Function.Agrees (fn fn₀ : Function) : Prop :=
  fn.decl = fn₀.decl ∧ fn.isInitializer = fn₀.isInitializer

/-- What a class has under the name of an initializer is one. -/
def Class.Initializes (cls : Class) (σ : Store) : Prop :=
  ∀ f, cls.methods.find? "init" = some f → ∃ fn, σ.function? f = some fn ∧ fn.isInitializer

namespace Store

/-- The functions of a store are those of another, copies of them, and new ones, and its new
classes have initializers under the name of one. -/
structure Renews (σ τ : Store) (new : Function → Prop) : Prop where
  /-- The functions. -/
  functions : ∀ f fn, τ.function? f = some fn →
    (∃ f₀ fn₀, σ.function? f₀ = some fn₀ ∧ fn.Agrees fn₀) ∨ new fn
  /-- The classes. -/
  classes : ∀ c cls, τ.class? c = some cls → σ.class? c = some cls ∨ cls.Initializes τ

/-- The classes of a store have initializers under the name of one. -/
def Initializes (σ : Store) : Prop := ∀ c cls, σ.class? c = some cls → cls.Initializes σ

/-- A store has the functions and the classes of another one. -/
def SameCode (σ τ : Store) : Prop := τ.functions = σ.functions ∧ τ.classes = σ.classes

variable {σ τ υ : Store} {new : Function → Prop} {e : EnvId} {name : String} {v : Value}
  {entries : List (String × Value)}

theorem SameCode.refl (σ : Store) : σ.SameCode σ := ⟨rfl, rfl⟩

theorem SameCode.trans (h : σ.SameCode τ) (h' : τ.SameCode υ) : σ.SameCode υ :=
  ⟨h'.1.trans h.1, h'.2.trans h.2⟩

theorem sameCode_defineAll : σ.SameCode (σ.defineAll e entries) := by
  refine ⟨functions_defineAll, ?_⟩
  induction entries generalizing σ with
  | nil => rfl
  | cons x rest ih => exact ih

theorem SameCode.renews (h : σ.SameCode τ) : σ.Renews τ new where
  functions f fn hfn := .inl ⟨f, fn, by rwa [function?, h.1] at hfn, rfl, rfl⟩
  classes c cls hcls := .inl (by rwa [class?, h.2] at hcls)

theorem renews_realize {p : Property}
    (hp : ∀ fn v, p = .method fn v → ∃ f, σ.function? f = some fn) :
    σ.Renews (σ.realize p).2 new := by
  cases p with
  | field v => exact SameCode.renews ⟨rfl, rfl⟩
  | method fn v =>
    -- the only new function is a copy of the method
    refine ⟨fun g fn' h => ?_, fun c cls => .inl⟩
    rcases function?_addFunction h with rfl | h
    · obtain ⟨f, hf⟩ := hp fn v rfl
      exact .inl ⟨f, fn, hf, rfl, rfl⟩
    · exact .inl ⟨g, fn', h, rfl, rfl⟩

/-- The functions of a store to which methods were added. -/
theorem declared_of_addMethods {initializers : Bool} {table : Table FunId}
    {decls : List (FunDecl Occurrence)} {f : FunId} {fn : Function}
    (h : (σ.addMethods e initializers table decls).2.function? f = some fn) :
    σ.function? f = some fn ∨
      fn.decl ∈ decls ∧ fn.isInitializer = (initializers && fn.decl.isInitName) := by
  induction decls generalizing σ table with
  | nil => exact .inl h
  | cons decl rest ih =>
    rcases ih h with h | ⟨hmem, hinit⟩
    · rcases function?_addFunction h with rfl | h
      · exact .inr ⟨List.mem_cons_self .., rfl⟩
      · exact .inl h
    · exact .inr ⟨List.mem_cons_of_mem _ hmem, hinit⟩

/-- A method is in the table under its own name. -/
theorem initializes_addMethods {table : Table FunId} {decls : List (FunDecl Occurrence)} {f : FunId}
    (h : (σ.addMethods e true table decls).1.find? "init" = some f) :
    table.find? "init" = some f ∨ ∃ fn,
      (σ.addMethods e true table decls).2.function? f = some fn ∧ fn.isInitializer := by
  induction decls generalizing σ table with
  | nil => exact .inl h
  | cons decl rest ih =>
    rcases ih h with h | hfound
    · rw [Table.find?_set] at h
      split at h
      · next hname =>
        cases h
        have hadded := function?_addFunction_self σ ⟨decl, e, true && decl.isInitName⟩
        -- methods that are added later leave it as it is
        refine .inr ⟨_, (extends_addMethods true _ rest).functions hadded, ?_⟩
        simp [FunDecl.isInitName, ← hname]
      · exact .inl h
    · exact .inr hfound

theorem renews_makeClass (name : String) (s : Option ClassId) (t : Token)
    (statics methods : List (FunDecl Occurrence)) :
    σ.Renews (σ.makeClass e name s statics methods).2
      (Stmt.class t none statics methods : Code).Declares := by
  have hinner : σ.SameCode (σ.enterClass e s).2 := by
    cases s <;> exact ⟨rfl, rfl⟩
  constructor
  -- the static methods are added after the others
  · intro f fn h
    rcases declared_of_addMethods (f := f) h with h | ⟨hmem, hinit⟩
    · rcases declared_of_addMethods h with h | ⟨hmem, hinit⟩
      · have hbefore : (σ.enterClass e s).2.function? f = some fn := h
        exact .inl ⟨f, fn, by rwa [function?, hinner.1] at hbefore, rfl, rfl⟩
      · exact .inr (.inl ⟨hmem, by simpa using hinit⟩)
    · exact .inr (.inr ⟨hmem, by simpa using hinit⟩)
  · intro c cls hcls
    rcases class?_addClass hcls with rfl | hold
    · -- the class that is made
      right
      intro f hf
      rcases initializes_addMethods hf with hnone | ⟨fn, hfn, hinit⟩
      · simp at hnone
      · exact ⟨fn, (extends_addMethods false _ statics).functions hfn, hinit⟩
    · left
      have hbefore : (σ.enterClass e s).2.class? c = some cls := by
        rw [class?, classes_addMethods, classes_addMethods] at hold
        exact hold
      rwa [class?, hinner.2] at hbefore

end Store

/-! ## Steps -/

namespace State

variable {st : State}

theorem sameCode_enterFunction (st : State) (fn : Function) (arguments : List Value) :
    st.store.SameCode (st.enterFunction fn arguments).store := by
  have hadd : st.store.SameCode (st.store.addEnvironment (some fn.closure)).2 := ⟨rfl, rfl⟩
  exact hadd.trans Store.sameCode_defineAll

theorem renews_declareFunction {k : StmtCont} (decl : FunDecl Occurrence) :
    st.store.Renews (st.declareFunction decl).store
      (Control.execute (.function decl) k).Declares := by
  refine ⟨fun f fn h => ?_, fun c cls => .inl⟩
  rcases Store.function?_addFunction h with rfl | h
  · exact .inr ⟨rfl, rfl⟩
  · exact .inl ⟨f, fn, h, rfl, rfl⟩

theorem renews_declareClass (name : Token) (s : Option ClassId)
    (statics methods : List (FunDecl Occurrence)) :
    st.store.Renews (st.declareClass name.lexeme s statics methods).2.store
      (Stmt.class name none statics methods : Code).Declares := by
  -- the definitions of the name before and afterwards change no function and no class
  have hmake : (st.store.define st.environment name.lexeme .nil).Renews
      ((st.store.define st.environment name.lexeme .nil).makeClass st.environment name.lexeme s
        statics methods).2 (Stmt.class name none statics methods : Code).Declares :=
    Store.renews_makeClass name.lexeme s name statics methods
  exact ⟨hmake.functions, hmake.classes⟩

/-- What each effect of a step makes of the functions and the classes. -/
theorem Effect.renews {c : Control} {τ : Store} (h : st.Effect c τ) :
    st.store.Renews τ c.Declares := by
  cases h with
  | function => exact renews_declareFunction _
  | «class» | subclass => exact renews_declareClass _ _ _ _
  | realize hp => exact Store.renews_realize hp
  | call => exact (sameCode_enterFunction _ _ _).renews
  | construct cls fn copy v arguments =>
    -- the copy that is called is no function of the store
    have hcopy : st.store.SameCode ((st.addInstance cls).2.copyFor fn v).2.store := ⟨rfl, rfl⟩
    exact (hcopy.trans (sameCode_enterFunction _ _ _)).renews
  | same | assign | var | nilVar | newVar | block | setField | addInstance | copy =>
    exact Store.SameCode.renews ⟨rfl, rfl⟩

end State

namespace Config

variable {setup : Setup} {c d : Config} {n : Nat}

/-- The functions after a step are those before it, copies of them, and what is declared, and new
classes have initializers under the name of one. -/
theorem renews_step (c : Config) (setup : Setup) :
    c.state.store.Renews (c.step setup).state.store c.control.Declares :=
  (effects_step c setup).store.renews

/-- What a function shares with its copies, and what is declared has, the functions after a step
have. -/
theorem functions_step {P : Function → Prop} (hcopy : ∀ fn fn₀, fn.Agrees fn₀ → P fn₀ → P fn)
    (hstore : ∀ f fn, c.state.store.function? f = some fn → P fn)
    (hdeclared : ∀ fn, c.control.Declares fn → P fn) :
    ∀ f fn, (c.step setup).state.store.function? f = some fn → P fn := by
  intro f fn hfn
  rcases (renews_step c setup).functions f fn hfn with ⟨f₀, fn₀, hf₀, hagrees⟩ | hnew
  · exact hcopy fn fn₀ hagrees (hstore f₀ fn₀ hf₀)
  · exact hdeclared fn hnew

/-- What classes have under the name of an initializer stays one. -/
theorem initializes_step (c : Config) (setup : Setup) (h : c.state.store.Initializes) :
    (c.step setup).state.store.Initializes := by
  intro d cls hcls
  rcases (renews_step c setup).classes d cls hcls with hold | hnew
  -- no function changes under a class that was there before
  · intro f hf
    obtain ⟨fn, hfn, hinit⟩ := h d cls hold f hf
    exact ⟨fn, (follows_step c setup).store.growth.functions hfn, hinit⟩
  · exact hnew

/-- The functions at a moment of a run. -/
theorem functions_after {P : Function → Prop} (hcopy : ∀ fn fn₀, fn.Agrees fn₀ → P fn₀ → P fn)
    (hstore : ∀ f fn, c.state.store.function? f = some fn → P fn)
    (hdeclared : ∀ m e, c.after? setup m = some e → ∀ fn, e.control.Declares fn → P fn)
    (hd : c.after? setup n = some d) : ∀ f fn, d.state.store.function? f = some fn → P fn := by
  refine invariant_after (P := fun d => ∀ f fn, d.state.store.function? f = some fn → P fn) hstore
    (fun m e he hbefore e' event hnext => ?_) hd
  have hafter : ∀ f fn, (e.step setup).state.store.function? f = some fn → P fn :=
    functions_step hcopy hbefore (hdeclared m e he)
  rwa [hnext] at hafter

/-- The functions at the end of a run. -/
theorem functions_run {P : Function → Prop} (hcopy : ∀ fn fn₀, fn.Agrees fn₀ → P fn₀ → P fn)
    (hstore : ∀ f fn, c.state.store.function? f = some fn → P fn)
    (hdeclared : ∀ m e, c.after? setup m = some e → ∀ fn, e.control.Declares fn → P fn)
    (n : Nat) : ∀ f fn, (c.run setup n).state.store.function? f = some fn → P fn := by
  refine state_run (Q := fun st => ∀ f fn, st.store.function? f = some fn → P fn)
    (fun m d hd => ?_) n
  have hmoment := functions_after hcopy hstore hdeclared hd
  exact ⟨hmoment, functions_step hcopy hmoment (hdeclared m d hd)⟩

end Config

/-! ## Functions of programs -/

/-- The returns that are allowed in a function. -/
def Function.returns (fn : Function) : Returns := if fn.isInitializer then .bare else .any

/-- A function that is declared at a place of the programs, where the resolver takes it for an
initializer exactly if it is called as one. -/
def Function.DeclaredIn (fn : Function) (K : Site → Prop) : Prop :=
  ∃ kind c openers, K ⟨c, openers, .function kind fn.decl⟩ ∧ kind.returns = fn.returns

theorem FunDecl.returns_methodKind (decl : FunDecl Occurrence) :
    decl.methodKind.returns = if decl.isInitName then .bare else .any := by
  unfold FunDecl.methodKind
  split <;> rfl

section Sites

variable {K : Site → Prop} {l : Locals} {w : World} {e : EnvId} {control : Control}
  {fn fn₀ : Function}

theorem Function.DeclaredIn.agrees (h : fn₀.DeclaredIn K) (hagrees : fn.Agrees fn₀) :
    fn.DeclaredIn K := by
  obtain ⟨kind, c, openers, hsite, hkind⟩ := h
  rw [← hagrees.1] at hsite
  exact ⟨kind, c, openers, hsite, by rw [hkind, returns, returns, hagrees.2]⟩

theorem Function.DeclaredIn.mono {K' : Site → Prop} (h : fn.DeclaredIn K)
    (hK : ∀ p, K p → K' p) : fn.DeclaredIn K' := by
  obtain ⟨kind, c, openers, hsite, hkind⟩ := h
  exact ⟨kind, c, openers, hK _ hsite, hkind⟩

/-- The body of a function stands where the returns of the function are allowed. -/
theorem Function.DeclaredIn.standsIn (h : fn.DeclaredIn K) (hs : Surveyed l K) :
    (Node.body fn.decl.body).StandsIn K fn.returns := by
  obtain ⟨kind, c, openers, hsite, hkind⟩ := h
  exact hkind ▸ Node.standsIn_body hs hsite

/-- The functions that a statement at a place of the programs declares. -/
theorem Stmt.Declares.declaredIn {s : Code} {c : Context} {openers : List Opener}
    (h : s.Declares fn) (hs : Surveyed l K) (hsite : K ⟨c, openers, .statement s⟩) :
    fn.DeclaredIn K := by
  cases s with
  | function decl =>
    obtain ⟨rfl, hinit⟩ := h
    refine ⟨_, _, _, hs.below hsite (.function c openers _), ?_⟩
    rw [Function.returns, hinit]
    rfl
  | «class» name superclass statics methods =>
    rcases h with ⟨hmem, hinit⟩ | ⟨hmem, hinit⟩
    · refine ⟨_, _, _, hs.below hsite (.method c openers name superclass statics hmem), ?_⟩
      rw [FunDecl.returns_methodKind, Function.returns, hinit]
    · refine ⟨_, _, _, hs.below hsite (.static c openers name superclass methods hmem), ?_⟩
      rw [Function.returns, hinit]
      rfl
  | _ => exact h.elim

/-- What is declared next is a function of the programs. -/
theorem Control.Fits.declaredIn (h : control.Fits w e) (hs : Surveyed l w.sites)
    (hfn : control.Declares fn) : fn.DeclaredIn w.sites := by
  cases h with
  | execute hsite => exact Stmt.Declares.declaredIn hfn hs hsite
  | @deliver _ _ v k _ _ hk =>
    cases k with
    | inherit superclass name statics methods k =>
      obtain ⟨⟨r, -, hsite⟩, -⟩ := hk
      exact Stmt.Declares.declaredIn (s := .class name (some r) statics methods) hfn hs hsite
    | _ => exact hfn.elim
  | _ => exact hfn.elim

end Sites

end Lox
