import Lox.Proofs.Machine.Sound

/-!
# What steps do to sound worlds

The changes that a step makes together: a method gets a receiver, a property gets its value, a
call begins, functions and classes are declared. Each leads from a sound world to a sound one
in which the new environment mirrors one more scope, or the new value fits.

## Main definitions

* `Store.Property.Fits`, `Store.Property.origins`: what a property relies on, and the
  environment that its value needs

## Main results

* `World.Sound.copyFor`, `World.Sound.realize`: methods and their receivers
* `World.Sound.enterBlock`, `World.Sound.enterFunction`: new scopes
* `World.Sound.declareFunction`, `World.Sound.declareClass`: declarations
* `World.sound_fresh`: the world of a new session
-/

namespace Lox

namespace World

variable {w : World} {e : EnvId} {c : Context} {openers : List Opener} {v : Value}

/-- A world with another store and more environments. -/
def grown (w : World) (σ : Store) (os : List Origin) : World :=
  { w with store := σ, origins := w.origins ++ os }

/-- A sound world that comes from another one. -/
structure Grows (w w' : World) : Prop where
  /-- The new world is sound. -/
  sound : w'.Sound
  /-- It comes from the other one. -/
  extend : w.Extends w'

theorem Grows.trans {w' w'' : World} (h : w.Grows w') (h' : w'.Grows w'') : w.Grows w'' :=
  ⟨h'.sound, h.extend.trans h'.extend⟩

theorem Sound.grows (h : w.Sound) : w.Grows w := ⟨h, .refl w⟩

theorem Sound.grows_define (h : w.Sound) (name : String) (he : w.store.Has e)
    (ho : ∀ o, w.origin? e = some o → o.Allows name) (hv : v.Fits w)
    (hsuper : name = Keyword.superWord.text → ∃ c, v = .class c) :
    w.Grows (w.withStore (w.store.define e name v)) :=
  have hext := extends_withStore Store.extends_define
  ⟨h.define he ho (hv.extend hext) hsuper, hext⟩

theorem Sound.grows_opened {p : EnvId} {o : Origin} (h : w.Sound) (hp : w.store.Has p)
    (ho : o.Met w.store) : w.Grows (w.opened p o) :=
  ⟨h.opened hp ho, extends_opened w p o⟩

/-- The new environment is known by its origin. -/
theorem origin?_opened (h : w.Sound) (p : EnvId) (o : Origin) :
    (w.opened p o).origin? (w.store.addEnvironment (some p)).1 = some o := by
  have hself : (w.store.addEnvironment (some p)).1.index = w.origins.length := h.length.symm
  simp [origin?, opened, hself]

theorem has_opened (w : World) (p : EnvId) (o : Origin) :
    (w.opened p o).store.Has (w.store.addEnvironment (some p)).1 :=
  Store.has_addEnvironment_self _

theorem parent?_opened (w : World) (p : EnvId) (o : Origin) :
    (w.opened p o).store.parent? (w.store.addEnvironment (some p)).1 = some p :=
  Store.parent?_addEnvironment_self _

theorem fits_of_not_function (h : ∀ f, v ≠ .function f) : v.Fits w := fun f hf => absurd hf (h f)

/-! ## Receivers -/

/-- A method gets a receiver. -/
theorem Sound.copyFor {fn : Function} (h : w.Sound) (hfn : fn.FitsMethod w) (hv : v.Fits w) :
    w.Grows (w.grown (w.store.copyFor fn v).2 [.receiver fn.decl]) ∧
      (w.store.copyFor fn v).1.Fits (w.grown (w.store.copyFor fn v).2 [.receiver fn.decl]) := by
  obtain ⟨kind, c, scopes, m, openers, hsite, hscopes, hmem, hm⟩ := hfn
  have hopened := h.grows_opened (o := .receiver fn.decl) (hm.has h) trivial
  have horigin := origin?_opened h fn.closure (.receiver fn.decl)
  have hhas := w.has_opened fn.closure (.receiver fn.decl)
  have hdefine := hopened.sound.grows_define Keyword.thisWord.text hhas
    (by simp [horigin, Origin.Allows, Origin.names?]) (hv.extend hopened.extend)
    fun h => absurd h (by decide)
  have hholds : ((w.opened fn.closure (.receiver fn.decl)).store.define
      (w.store.addEnvironment (some fn.closure)).1 Keyword.thisWord.text v).holds
      (w.store.addEnvironment (some fn.closure)).1 Keyword.thisWord.text :=
    Store.holds_define_self hhas
  refine ⟨hopened.trans hdefine, ⟨⟨kind, c, _, hsite, ?_⟩, fun _ => hholds⟩⟩
  rw [hscopes]
  refine .inside (hdefine.extend.origin? horigin) hmem (fun n hn => ?_)
    (hdefine.extend.store.parents (w.parent?_opened _ _))
    (hm.extend (hopened.trans hdefine).extend)
  obtain rfl : n = Keyword.thisWord.text := by simpa using hn
  exact hholds

end World

namespace Store.Property

/-- What a property relies on. -/
def Fits (p : Property) (w : World) : Prop :=
  match p with
  | field v => v.Fits w
  | method fn receiver => fn.FitsMethod w ∧ receiver.Fits w

/-- The environment that is made for the value of a property. -/
def origins : Property → List Origin
  | field _ => []
  | method fn _ => [.receiver fn.decl]

end Store.Property

namespace World

variable {w : World} {e : EnvId} {c : Context} {openers : List Opener} {v : Value}

/-- A property gets its value. -/
theorem Sound.realize {p : Store.Property} (h : w.Sound) (hp : p.Fits w) :
    w.Grows (w.grown (w.store.realize p).2 p.origins) ∧
      (w.store.realize p).1.Fits (w.grown (w.store.realize p).2 p.origins) := by
  cases p with
  | field v =>
    have hw : w.grown (w.store.realize (.field v)).2 (Store.Property.origins (.field v)) = w := by
      simp [grown, Store.realize, Store.Property.origins]
    rw [hw]
    exact ⟨h.grows, hp⟩
  | method fn receiver =>
    obtain ⟨hcopy, hfits⟩ := h.copyFor hp.1 hp.2
    have hadd := hcopy.sound.addFunction (w.store.copyFor fn receiver).1
    have hext := extends_withStore
      (w := w.grown (w.store.copyFor fn receiver).2 [.receiver fn.decl])
      (Store.extends_addFunction (w.store.copyFor fn receiver).1)
    refine ⟨hcopy.trans ⟨hadd, hext⟩, fun f hf => ?_⟩
    cases hf
    exact ⟨_, Store.function?_addFunction_self _ _, hfits.extend hext⟩

/-! ## Scopes -/

theorem Mirrors.declare (hm : w.Mirrors e c.scopes openers) (t : Token) :
    w.Mirrors e (c.declare t).scopes openers := by
  cases hc : c.scopes with
  | nil => simpa [Context.declare, hc] using hm
  | cons scope outer =>
    rw [Context.declare, Context.scopes_setName_cons hc]
    rw [hc] at hm
    cases hm with
    | inside ho hfor hnames hparent houter =>
      refine .inside ho hfor (fun n hn => hnames n ?_) hparent houter
      rw [Table.find?_set] at hn
      split at hn
      · cases hn
      · exact hn

/-- A name that an environment holds has ended. -/
theorem Mirrors.define (hm : w.Mirrors e c.scopes openers) {t : Token}
    (ht : w.store.holds e t.lexeme) : w.Mirrors e (c.define t).scopes openers := by
  cases hc : c.scopes with
  | nil => simpa [Context.define, hc] using hm
  | cons scope outer =>
    rw [Context.define, Context.scopes_setName_cons hc]
    rw [hc] at hm
    cases hm with
    | inside ho hfor hnames hparent houter =>
      refine .inside ho hfor (fun n hn => ?_) hparent houter
      rw [Table.find?_set] at hn
      split at hn
      · next h => exact h ▸ ht
      · exact hnames n hn

theorem Mirrors.declared (hm : w.Mirrors e c.scopes openers) {t : Token}
    (ht : w.store.holds e t.lexeme) : w.Mirrors e (c.declared (some t)).scopes openers :=
  (hm.declare t).define ht

/-- A variable is defined in the environment of the innermost scope. -/
theorem Sound.defineName (h : w.Sound) (hm : w.Mirrors e c.scopes openers) {t : Token}
    (ht : t.IsName) (ho : ∀ o ∈ openers.head?, t.lexeme ∈ o.names) (hv : v.Fits w) :
    w.Grows (w.withStore (w.store.define e t.lexeme v)) ∧
      (w.withStore (w.store.define e t.lexeme v)).Mirrors e (c.declared (some t)).scopes
        openers := by
  have hgrows := h.grows_define _ (hm.has h) (fun o => hm.allows h ho) hv
    fun hsuper => absurd hsuper (ht.ne_text _)
  exact ⟨hgrows, (hm.extend hgrows.extend).declared (Store.holds_define_self (hm.has h))⟩

/-- A block is entered. -/
theorem Sound.enterBlock (h : w.Sound) (hm : w.Mirrors e c.scopes openers) (body : List Code) :
    w.Grows (w.opened e (.block body)) ∧
      (w.opened e (.block body)).Mirrors (w.store.addEnvironment (some e)).1
        (c.enter .empty).scopes (.block body :: openers) := by
  have hgrows := h.grows_opened (o := .block body) (hm.has h) trivial
  exact ⟨hgrows, .inside (origin?_opened h _ _) rfl (by simp) (w.parent?_opened _ _)
    (hm.extend hgrows.extend)⟩

/-- Variables are set one after the other, and each is held at the end. -/
theorem Sound.defineAll (h : w.Sound) (he : w.store.Has e) (entries : List (String × Value))
    (ho : ∀ x ∈ entries, ∀ o, w.origin? e = some o → o.Allows x.1)
    (hv : ∀ x ∈ entries, x.2.Fits w) (hsuper : ∀ x ∈ entries, x.1 ≠ Keyword.superWord.text) :
    w.Grows (w.withStore (w.store.defineAll e entries)) ∧
      ∀ x ∈ entries, (w.store.defineAll e entries).holds e x.1 := by
  induction entries generalizing w with
  | nil => exact ⟨h.grows, by simp⟩
  | cons x rest ih =>
    have hgrows := h.grows_define _ he (ho x (by simp)) (hv x (by simp))
      fun hx => absurd hx (hsuper x (by simp))
    have hrest := ih (w := w.withStore (w.store.define e x.1 x.2)) hgrows.sound
      (Store.has_define.2 he) (fun y hy => ho y (by simp [hy]))
      (fun y hy => (hv y (by simp [hy])).extend hgrows.extend) (fun y hy => hsuper y (by simp [hy]))
    refine ⟨hgrows.trans hrest.1, fun y hy => ?_⟩
    rcases List.mem_cons.1 hy with rfl | hy
    · exact hrest.1.extend.store.names (Store.holds_define_self he)
    · exact hrest.2 y hy

/-- The environment of a call, with the parameters set. -/
def callStore (σ : Store) (fn : Function) (arguments : List Value) : Store :=
  (σ.addEnvironment (some fn.closure)).2.defineAll (σ.addEnvironment (some fn.closure)).1
    ((fn.decl.params.map (·.lexeme)).zip arguments)

/-- A call with as many arguments as there are parameters begins. -/
theorem Sound.enterFunction {l : Locals} {fn : Function} {arguments : List Value} (h : w.Sound)
    (hs : Surveyed l w.sites) (hfn : fn.Fits w) (hv : ∀ v ∈ arguments, v.Fits w)
    (hlen : arguments.length = fn.decl.arity) :
    w.Grows (w.grown (callStore w.store fn arguments) [.call fn arguments]) ∧
      ∃ c openers, w.sites ⟨c, openers, .body fn.decl.body⟩ ∧
        (w.grown (callStore w.store fn arguments) [.call fn arguments]).Mirrors
          (w.store.addEnvironment (some fn.closure)).1 c.scopes openers := by
  obtain ⟨kind, c, openers, hsite, hm⟩ := hfn.site
  have hgenuine : Stmt.GenuineFunction fn.decl := (hs.settled hsite).genuine
  have hopened := h.grows_opened (o := .call fn arguments) (hm.has h) ⟨hlen, hfn.receiver⟩
  have horigin := origin?_opened h fn.closure (.call fn arguments)
  -- there is an argument for each parameter, so the variables of the call are the parameters
  have hfst : ((fn.decl.params.map (·.lexeme)).zip arguments).map (·.1) =
      fn.decl.params.map (·.lexeme) :=
    List.map_fst_zip (by simp [hlen, FunDecl.arity])
  have hname : ∀ x ∈ (fn.decl.params.map (·.lexeme)).zip arguments,
      ∃ p ∈ fn.decl.params, p.lexeme = x.1 := fun x hx =>
    List.mem_map.1 (hfst ▸ List.mem_map_of_mem hx)
  have hallows : ∀ x ∈ (fn.decl.params.map (·.lexeme)).zip arguments, ∀ o,
      (w.opened fn.closure (.call fn arguments)).origin?
        (w.store.addEnvironment (some fn.closure)).1 = some o → o.Allows x.1 := by
    intro x hx o ho
    obtain ⟨p, hp, hpx⟩ := hname x hx
    rw [horigin] at ho
    cases ho
    have hfor : Origin.For (.call fn arguments) (.function fn.decl) := rfl
    rw [hfor.allows_iff, ← hpx]
    exact List.mem_append_left _ (List.mem_map_of_mem hp)
  have hsuper : ∀ x ∈ (fn.decl.params.map (·.lexeme)).zip arguments,
      x.1 ≠ Keyword.superWord.text := by
    intro x hx
    obtain ⟨p, hp, hpx⟩ := hname x hx
    exact hpx ▸ (Stmt.GenuineFunction.params hgenuine p hp).ne_text _
  obtain ⟨hdefine, hholds⟩ := hopened.sound.defineAll (w.has_opened _ _) _ hallows
    (fun x hx => (hv _ (List.of_mem_zip hx).2).extend hopened.extend) hsuper
  refine ⟨hopened.trans hdefine, c.enterFunction kind fn.decl.params,
    .function fn.decl :: openers, hs.below hsite (.body c openers kind fn.decl), ?_⟩
  -- the body starts in the scope of the parameters, all of which have ended
  obtain ⟨inner, hinner, hall⟩ := c.scopes_enterFunction kind fn.decl.params
  rw [hinner]
  refine .inside (hdefine.extend.origin? horigin) rfl (fun n hn => ?_)
    (hdefine.extend.store.parents (w.parent?_opened _ _))
    (hm.extend (hopened.trans hdefine).extend)
  have hmem := (hall n).1 (by simp [Table.has, hn])
  rw [← hfst] at hmem
  obtain ⟨x, hx, rfl⟩ := List.mem_map.1 hmem
  exact hholds x hx

/-! ## Declarations -/

/-- A function is declared: its closure is the environment that holds its name. -/
theorem Sound.declareFunction {l : Locals} {decl : FunDecl Occurrence} (h : w.Sound)
    (hs : Surveyed l w.sites) (hsite : w.sites ⟨c, openers, .statement (.function decl)⟩)
    (hm : w.Mirrors e c.scopes openers) {fn : Function}
    (hfn : fn = { decl, closure := e, isInitializer := false }) :
    w.Grows (w.withStore ((w.store.addFunction fn).2.define e decl.name.lexeme
        (.function (w.store.addFunction fn).1))) ∧
      (w.withStore ((w.store.addFunction fn).2.define e decl.name.lexeme
        (.function (w.store.addFunction fn).1))).Mirrors e (c.declared (some decl.name)).scopes
        openers := by
  have hadd : w.Grows (w.withStore (w.store.addFunction fn).2) :=
    ⟨h.addFunction fn, extends_withStore (Store.extends_addFunction fn)⟩
  have hm' := hm.extend hadd.extend
  have hhas := hm'.has hadd.sound
  have hext : (w.withStore (w.store.addFunction fn).2).Extends
      (w.withStore ((w.store.addFunction fn).2.define e decl.name.lexeme
        (.function (w.store.addFunction fn).1))) :=
    ⟨id, Store.extends_define, List.prefix_refl _⟩
  have hmirrors : (w.withStore ((w.store.addFunction fn).2.define e decl.name.lexeme
      (.function (w.store.addFunction fn).1))).Mirrors e (c.declared (some decl.name)).scopes
      openers :=
    (hm'.extend hext).declared (Store.holds_define_self hhas)
  have hsettled := hs.settled hsite
  have hgenuine : Stmt.GenuineFunction decl := hsettled.genuine
  have hname : decl.name.IsName := Stmt.GenuineFunction.name hgenuine
  refine ⟨hadd.trans ⟨hadd.sound.define hhas (fun o => hm'.allows hadd.sound
    (hsettled.mem_names decl.name rfl))
    (fun f hf => ?_) fun hsuper => absurd hsuper (hname.ne_text _), hext⟩, hmirrors⟩
  -- the function is its own value only in the world in which its name has ended, so that it fits
  -- there and not before
  cases hf
  subst hfn
  exact ⟨_, Store.function?_addFunction_self _ _, ⟨.function, c.declared (some decl.name), openers,
    hs.below hsite (.function c openers decl), hmirrors⟩, by simp⟩

/-- The environment that is made for a class with a superclass. -/
def superOrigins (m : Members) : Option ClassId → List Origin
  | none => []
  | some _ => [.superclass m]

/-- The environment in which the methods of a class are declared. -/
theorem Sound.enterClass (h : w.Sound) (hm : w.Mirrors e c.scopes openers) (m : Members)
    {r : Option (Ref Occurrence)} {s : Option ClassId} (hrs : s.isSome = r.isSome) :
    w.Grows (w.grown (w.store.enterClass e s).2 (superOrigins m s)) ∧
      ∃ scopes os, (c.enterClass r).scopes = Table.empty.set Keyword.thisWord.text true :: scopes ∧
        m.openers r ++ openers = .receiver m :: os ∧
        (w.grown (w.store.enterClass e s).2 (superOrigins m s)).Mirrors (w.store.enterClass e s).1
          scopes os := by
  cases s with
  | none =>
    obtain rfl : r = none := by simpa using hrs.symm
    have hw : w.grown (w.store.enterClass e none).2 (superOrigins m none) = w := by
      simp [grown, Store.enterClass, superOrigins]
    rw [hw]
    exact ⟨h.grows, c.scopes, openers, rfl, rfl, hm⟩
  | some d =>
    obtain ⟨r, rfl⟩ : ∃ r', r = some r' := Option.isSome_iff_exists.1 hrs.symm
    have hopened := h.grows_opened (o := .superclass m) (hm.has h) trivial
    have horigin := origin?_opened h e (.superclass m)
    have hhas := w.has_opened e (.superclass m)
    have hdefine := hopened.sound.grows_define (v := .class d) Keyword.superWord.text hhas
      (by simp [horigin, Origin.Allows, Origin.names?]) (fits_of_not_function (by simp))
      fun _ => ⟨d, rfl⟩
    -- the environment holds `super`, as its opener says
    refine ⟨hopened.trans hdefine, _, .superclass m :: openers, rfl, rfl, ?_⟩
    refine .inside (hdefine.extend.origin? horigin) rfl (fun n hn => ?_)
      (hdefine.extend.store.parents (w.parent?_opened _ _))
      (hm.extend (hopened.trans hdefine).extend)
    obtain rfl : n = Keyword.superWord.text := by simpa [Keyword.text] using hn
    exact Store.holds_define_self hhas

/-- Methods are added to a table of methods. By induction on the declarations: the world and the
table grow with each one. -/
theorem Sound.addMethods (h : w.Sound) (initializers : Bool) (table : Table FunId)
    (decls : List (FunDecl Occurrence)) (htable : w.HasMethods table)
    (hdecls : ∀ decl ∈ decls, ∀ i, Function.FitsMethod ⟨decl, e, i⟩ w) :
    w.Grows (w.withStore (w.store.addMethods e initializers table decls).2) ∧
      (w.withStore (w.store.addMethods e initializers table decls).2).HasMethods
        (w.store.addMethods e initializers table decls).1 := by
  induction decls generalizing w table with
  | nil => exact ⟨h.grows, htable⟩
  | cons decl rest ih =>
    let fn : Function := ⟨decl, e, initializers && decl.isInitName⟩
    have hadd : w.Grows (w.withStore (w.store.addFunction fn).2) :=
      ⟨h.addFunction fn, extends_withStore (Store.extends_addFunction fn)⟩
    have hrest := ih (w := w.withStore (w.store.addFunction fn).2) hadd.sound
      (table.set decl.name.lexeme (w.store.addFunction fn).1) (fun n f hf => ?_)
      fun d hd i => (hdecls d (by simp [hd]) i).extend hadd.extend
    · exact ⟨hadd.trans hrest.1, hrest.2⟩
    · rw [Table.find?_set] at hf
      split at hf
      · cases hf
        exact ⟨fn, Store.function?_addFunction_self _ _,
          (hdecls decl (by simp) _).extend hadd.extend⟩
      · exact (htable.extend hadd.extend) n f hf

/-- A class is made whose methods stand in a settled place. -/
theorem Sound.makeClass (h : w.Sound) (hm : w.Mirrors e c.scopes openers) (name : Token)
    {r : Option (Ref Occurrence)} {s : Option ClassId} (hrs : s.isSome = r.isSome)
    (statics methods : List (FunDecl Occurrence))
    (hsites : ∀ f ∈ statics ++ methods, ∃ kind, w.sites ⟨c.enterClass r,
      Members.openers ⟨name, statics, methods⟩ r ++ openers, .function kind f⟩) :
    w.Grows (w.grown (w.store.makeClass e name.lexeme s statics methods).2
      (superOrigins ⟨name, statics, methods⟩ s)) := by
  obtain ⟨henter, scopes, os, hscopes, hos, hinner⟩ := h.enterClass hm ⟨name, statics, methods⟩ hrs
  have hfits : ∀ f ∈ statics ++ methods, ∀ i, Function.FitsMethod
      ⟨f, (w.store.enterClass e s).1, i⟩ (w.grown (w.store.enterClass e s).2
        (superOrigins ⟨name, statics, methods⟩ s)) := by
    intro f hf i
    obtain ⟨kind, hsite⟩ := hsites f hf
    rw [hos] at hsite
    exact ⟨kind, _, scopes, _, os, hsite, hscopes, List.mem_append.1 hf, hinner⟩
  -- the methods are added before the static ones, and both before the class
  obtain ⟨hfirst, hmethods⟩ := henter.sound.addMethods true .empty methods
    (fun n f hf => by simp at hf) fun f hf => hfits f (List.mem_append_right _ hf)
  obtain ⟨hsecond, hstatics⟩ := hfirst.sound.addMethods false .empty statics
    (fun n f hf => by simp at hf) fun f hf i =>
      (hfits f (List.mem_append_left _ hf) i).extend hfirst.extend
  refine henter.trans (hfirst.trans (hsecond.trans ⟨?_, extends_withStore
    (Store.extends_addClass _)⟩))
  exact hsecond.sound.addClass (hmethods.extend hsecond.extend) hstatics

/-- The store after the declaration of a class. -/
def classStore (σ : Store) (e : EnvId) (name : String) (s : Option ClassId)
    (statics methods : List (FunDecl Occurrence)) : Store :=
  ((σ.define e name .nil).makeClass e name s statics methods).2.define e name
    (.class ((σ.define e name .nil).makeClass e name s statics methods).1)

/-- A class is declared. -/
theorem Sound.declareClass {l : Locals} (h : w.Sound) (hs : Surveyed l w.sites) {name : Token}
    {r : Option (Ref Occurrence)} {statics methods : List (FunDecl Occurrence)}
    (hsite : w.sites ⟨c, openers, .statement (.class name r statics methods)⟩)
    (hm : w.Mirrors e c.scopes openers) {s : Option ClassId} (hrs : s.isSome = r.isSome) :
    w.Grows (w.grown (classStore w.store e name.lexeme s statics methods)
        (superOrigins ⟨name, statics, methods⟩ s)) ∧
      (w.grown (classStore w.store e name.lexeme s statics methods)
        (superOrigins ⟨name, statics, methods⟩ s)).Mirrors e (c.declared (some name)).scopes
          openers := by
  have hsettled := hs.settled hsite
  have hname : name.IsName := hsettled.genuine.1
  have hallowed := hsettled.mem_names name rfl
  have hsites : ∀ f ∈ statics ++ methods, ∃ kind, w.sites ⟨(c.declared (some name)).enterClass r,
      Members.openers ⟨name, statics, methods⟩ r ++ openers, .function kind f⟩ := by
    intro f hf
    rcases List.mem_append.1 hf with hf | hf
    · exact ⟨.method, hs.below hsite (.static c openers name r methods hf)⟩
    · exact ⟨f.methodKind, hs.below hsite (.method c openers name r statics hf)⟩
  -- the name is `nil` while the methods are made, and the class itself afterwards
  obtain ⟨hnil, hmnil⟩ := h.defineName hm hname hallowed (v := .nil)
    (fits_of_not_function (by simp))
  have hmake := hnil.sound.makeClass hmnil name hrs statics methods hsites
  have hgrows := hnil.trans hmake
  have hdefine := hmake.sound.defineName (hm.extend hgrows.extend) hname hallowed
    (v := .class ((w.store.define e name.lexeme .nil).makeClass e name.lexeme s statics methods).1)
    (fits_of_not_function (by simp))
  exact ⟨hgrows.trans hdefine.1, hdefine.2⟩

/-! ## The first world -/

/-- The world of a new session. -/
def fresh : World := ⟨fun _ => False, Store.fresh, [.globals]⟩

theorem environment?_fresh {e : EnvId} {env : Environment}
    (h : Store.fresh.environment? e = some env) :
    env.parent = none ∧ ∀ n v, env.values.find? n = some v → n = "clock" ∧ v = .native .clock := by
  have hstore : Store.fresh.environments =
      #[⟨none, Table.empty.set "clock" (.native .clock)⟩] := rfl
  rw [Store.environment?, hstore] at h
  obtain ⟨-, rfl⟩ := Array.getElem?_eq_some_iff.1 h
  refine ⟨by simp, fun n v hn => ?_⟩
  simpa [eq_comm] using hn

theorem sound_fresh : fresh.Sound where
  length := rfl
  met o ho := by
    obtain rfl := List.mem_singleton.1 ho
    trivial
  globals := rfl
  outermost := rfl
  parents {e p} hp := by
    obtain ⟨env, henv, hp⟩ := Option.bind_eq_some_iff.1 hp
    simp [(environment?_fresh henv).1] at hp
  names {e n o} _ ho := by
    obtain ⟨i⟩ := e
    cases i with
    | zero =>
      cases ho
      simp [Origin.Allows, Origin.names?]
    | succ => cases ho
  values {e n v} hv := by
    obtain ⟨env, henv, hv⟩ := Option.bind_eq_some_iff.1 hv
    obtain ⟨-, rfl⟩ := (environment?_fresh henv).2 n v hv
    exact fits_of_not_function (by simp)
  super {e v} hv := by
    obtain ⟨env, henv, hv⟩ := Option.bind_eq_some_iff.1 hv
    exact absurd ((environment?_fresh henv).2 _ v hv).1 (by decide)
  methods hc := by cases hc
  fields hv := by cases hv

end World

end Lox
