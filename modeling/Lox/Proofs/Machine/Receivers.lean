import Lox.Proofs.Machine.Moments
import Lox.Proofs.Scope.Members
import Lox.Proofs.Store.Receivers

/-!
# Methods and their receivers

A method that is read from an object is copied, and the copy sees the object as `this`. A world
is kept together with the bindings of its methods: which environment was made for which method.
Every function whose environment holds `this` is such a copy, every receiver is one that the
method is meant for, and what a method sees as `super` is the superclass of its class.

## Main definitions

* `Binding`, `Function.Copies`: a method that got a receiver, and its copy
* `World.Receivers`: what holds of the bindings of a world
* `World.Keeps`: a world that comes from another without a change of classes and receivers

## Main results

* `World.Receivers.grow`: changes that make no class
* `World.Receivers.copyFor`, `World.Receivers.realize`: methods that get a receiver
* `World.Receivers.declareClass`: new classes
-/

namespace Lox

namespace Store

variable {σ : Store} {e : EnvId} {f : FunId} {name : String}

/-- The functions that are added as methods are new ones with one closure. -/
theorem new_of_addMethods {initializers : Bool} {table : Table FunId}
    {decls : List (FunDecl Occurrence)}
    (h : (σ.addMethods e initializers table decls).1.find? name = some f) :
    (∃ name, table.find? name = some f) ∨ σ.functions.size ≤ f.index ∧
      ∃ fn, (σ.addMethods e initializers table decls).2.function? f = some fn ∧
        fn.closure = e ∧ fn.decl ∈ decls := by
  induction decls generalizing σ table with
  | nil => exact .inl ⟨name, h⟩
  | cons decl rest ih =>
    let g : Function := ⟨decl, e, initializers && decl.isInitName⟩
    rcases ih h with ⟨n, h⟩ | ⟨hle, fn, hfn, hclosure, hdecl⟩
    · rw [Table.find?_set] at h
      split at h
      · cases h
        have hadded := function?_addFunction_self σ g
        exact .inr ⟨Nat.le_refl _, g,
          (extends_addMethods initializers _ rest).functions hadded, rfl, .head _⟩
      · exact .inl ⟨n, h⟩
    · refine .inr ⟨Nat.le_of_succ_le ?_, fn, hfn, hclosure, .tail _ hdecl⟩
      simpa [addFunction] using hle

/-- A table holds functions that are new since a store, with one closure and some declarations. -/
def HoldsNew (σ τ : Store) (e : EnvId) (decls : List (FunDecl Occurrence)) (table : Table FunId) :
    Prop :=
  ∀ {name f}, table.find? name = some f → σ.functions.size ≤ f.index ∧
    ∃ fn, τ.function? f = some fn ∧ fn.closure = e ∧ fn.decl ∈ decls

theorem holdsNew_addMethods (initializers : Bool) (decls : List (FunDecl Occurrence)) :
    HoldsNew σ (σ.addMethods e initializers .empty decls).2 e decls
      (σ.addMethods e initializers .empty decls).1 := by
  intro name f h
  rcases new_of_addMethods h with ⟨n, h⟩ | h
  · simp at h
  · exact h

/-- No function is lost. -/
theorem Extends.size_le {τ : Store} (h : σ.Extends τ) :
    σ.functions.size ≤ τ.functions.size := by
  refine Nat.le_of_not_lt fun hlt => ?_
  have hnext := h.functions (f := ⟨τ.functions.size⟩) (Array.getElem?_eq_getElem hlt)
  exact Nat.lt_irrefl _ (Array.getElem?_eq_some_iff.1 hnext).1

namespace HoldsNew

variable {τ υ : Store} {decls : List (FunDecl Occurrence)} {table table' : Table FunId}

/-- In a store that comes later. -/
theorem later (h : HoldsNew σ τ e decls table) (hτ : τ.Extends υ) :
    HoldsNew σ υ e decls table := by
  intro name f hf
  obtain ⟨hle, fn, hfn, hrest⟩ := h hf
  exact ⟨hle, fn, hτ.functions hfn, hrest⟩

/-- Since a store that was before. -/
theorem since (h : HoldsNew τ υ e decls table) (hσ : σ.Extends τ) :
    HoldsNew σ υ e decls table := by
  intro name f hf
  obtain ⟨hle, hrest⟩ := h hf
  exact ⟨Nat.le_trans hσ.size_le hle, hrest⟩

/-- What is new after a table was filled is not in the table. -/
theorem disjoint {e' : EnvId} {decls' : List (FunDecl Occurrence)} {name name' : String}
    (h : HoldsNew σ τ e decls table) (h' : HoldsNew τ υ e' decls' table')
    (hf : table.find? name = some f) : table'.find? name' ≠ some f := by
  intro hf'
  obtain ⟨-, fn, hfn, -⟩ := h hf
  exact Nat.not_lt.2 (h' hf').1 (Array.getElem?_eq_some_iff.1 hfn).1

end HoldsNew

theorem classes_addMethods (initializers : Bool) (table : Table FunId)
    (decls : List (FunDecl Occurrence)) :
    (σ.addMethods e initializers table decls).2.classes = σ.classes := by
  induction decls generalizing σ table with
  | nil => rfl
  | cons decl rest ih => exact ih _

end Store

/-- A method that got a receiver. -/
structure Binding where
  /-- The environment that holds the receiver. -/
  env : EnvId
  /-- The method as its class has it. -/
  method : FunId

/-- A function is the copy of a method that got a receiver. -/
def Function.Copies (fn : Function) (b : Binding) (σ : Store) : Prop :=
  ∃ method, σ.function? b.method = some method ∧ fn = { method with closure := b.env }

namespace Origin

/-- Whether an environment was made for a receiver. -/
def isReceiver : Origin → Bool
  | receiver _ => true
  | _ => false

/-- Whether an environment was made for a superclass. -/
def isSuperclass : Origin → Bool
  | superclass _ => true
  | _ => false

end Origin

/-- A function is a copy of a method that got a receiver, or its environment was made for something
else. -/
def Function.Traced (fn : Function) (w : World) (bs : List Binding) : Prop :=
  (∃ b ∈ bs, fn.Copies b w.store) ∨ ∃ o, w.origin? fn.closure = some o ∧ o.isReceiver = false

/-- With more bindings. -/
theorem Function.Traced.append {fn : Function} {w : World} {bs : List Binding}
    (h : fn.Traced w bs) (new : List Binding) : fn.Traced w (bs ++ new) := by
  rcases h with ⟨b, hb, hcopies⟩ | h
  · exact .inl ⟨b, List.mem_append_left _ hb, hcopies⟩
  · exact .inr h

/-- A method of a class with some superclass or none: it is declared where `super` stands for the
superclass. -/
def Function.Belongs (fn : Function) (w : World) (static : Bool) : Option ClassId → Prop
  | some s => w.store.binding? fn.closure Keyword.superWord.text = some (.class s) ∧
      ∃ m, w.origin? fn.closure = some (.superclass m) ∧ fn.decl ∈ m.list static
  | none => ∃ o, w.origin? fn.closure = some o ∧ o.isSuperclass = false

/-- A method that got a receiver is one of a class, and the receiver is one that the methods of the
class are meant for. -/
def Binding.Fits (b : Binding) (w : World) : Prop :=
  ∃ method v static c, w.store.function? b.method = some method ∧
    w.store.parent? b.env = some method.closure ∧
    w.origin? b.env = some (.receiver method.decl) ∧
    w.store.binding? b.env Keyword.thisWord.text = some v ∧
    w.store.Declares static c b.method ∧ w.store.Receives static c v

namespace World

/-- A world comes from another without a change of classes, receivers and superclasses. -/
structure Keeps (w w' : World) : Prop where
  /-- The world comes from the other one. -/
  extend : w.Extends w'
  /-- The classes are kept. -/
  store : w.store.Retains w'.store
  /-- What reserved words stand for is kept. -/
  keywords : ∀ {e : EnvId} {k : Keyword} {v : Value}, w.store.binding? e k.text = some v →
    w'.store.binding? e k.text = some v

/-- What holds of the methods that got a receiver in a world. -/
structure Receivers (w : World) (bs : List Binding) : Prop where
  /-- Every environment has an origin. -/
  length : w.origins.length = w.store.environments.size
  /-- The receivers fit. -/
  bound : ∀ b ∈ bs, b.Fits w
  /-- Nothing else holds `this`. -/
  holder : ∀ {e : EnvId}, w.store.holds e Keyword.thisWord.text → ∃ b ∈ bs, b.env = e
  /-- Functions are copies if their environment was made for a receiver. -/
  functions : ∀ {f : FunId} {fn : Function}, w.store.function? f = some fn → fn.Traced w bs
  /-- So are functions that were called. -/
  calls : ∀ {e : EnvId} {fn : Function} {arguments : List Value},
    w.origin? e = some (.call fn arguments) →
      w.store.parent? e = some fn.closure ∧ fn.Traced w bs
  /-- Methods are declared where `super` stands for the superclass. -/
  belongs : ∀ {static : Bool} {c : ClassId} {cls : Class} {f : FunId},
    w.store.class? c = some cls → w.store.Declares static c f →
      ∃ fn, w.store.function? f = some fn ∧ fn.Belongs w static cls.superclass
  /-- A function is a method of one class and of one kind. -/
  unique : ∀ {static static' : Bool} {c c' : ClassId} {f : FunId},
    w.store.Declares static c f → w.store.Declares static' c' f → static = static' ∧ c = c'

variable {w w' w'' : World} {bs new : List Binding} {fn : Function} {e p : EnvId} {name : String}
  {v : Value} {static : Bool} {c : ClassId} {f : FunId} {o : Origin}

/-! ## Changes that keep classes and receivers -/

namespace Keeps

theorem refl (w : World) : w.Keeps w := ⟨.refl w, .refl _, id⟩

theorem trans (h : w.Keeps w') (h' : w'.Keeps w'') : w.Keeps w'' :=
  ⟨h.extend.trans h'.extend, h.store.trans h'.store, h'.keywords ∘ h.keywords⟩

theorem traced (h : w.Keeps w') (hfn : fn.Traced w bs) : fn.Traced w' bs := by
  rcases hfn with ⟨b, hb, method, hmethod, heq⟩ | ⟨o, ho, hkind⟩
  · exact .inl ⟨b, hb, method, h.extend.store.functions hmethod, heq⟩
  · exact .inr ⟨o, h.extend.origin? ho, hkind⟩

theorem belongs (h : w.Keeps w') {s : Option ClassId} (hfn : fn.Belongs w static s) :
    fn.Belongs w' static s := by
  cases s with
  | none =>
    obtain ⟨o, ho, hkind⟩ := hfn
    exact ⟨o, h.extend.origin? ho, hkind⟩
  | some s =>
    obtain ⟨hsuper, m, hm, hmem⟩ := hfn
    exact ⟨h.keywords hsuper, m, h.extend.origin? hm, hmem⟩

theorem fits (h : w.Keeps w') {b : Binding} (hb : b.Fits w) : b.Fits w' := by
  obtain ⟨method, v, static, c, hmethod, hparent, horigin, hthis, hdeclares, hreceives⟩ := hb
  exact ⟨method, v, static, c, h.extend.store.functions hmethod, h.extend.store.parents hparent,
    h.extend.origin? horigin, h.keywords hthis, h.store.declares hdeclares,
    h.store.receives hreceives⟩

end Keeps

/-- A variable is set that is no reserved word or was not set before. -/
theorem keeps_define (he : w.store.Has e)
    (hname : ∀ k : Keyword, k.text = name → w.store.holds e name = false) :
    w.Keeps (w.withStore (w.store.define e name v)) := by
  refine ⟨extends_withStore Store.extends_define, .of_eq rfl rfl, fun {a k u} hu => ?_⟩
  simp only [withStore, Store.binding?_define he]
  split
  · next hcase =>
    have hfree := hname k hcase.2
    rw [Store.holds, ← hcase.1, ← hcase.2, hu] at hfree
    cases hfree
  · exact hu

theorem keeps_opened : w.Keeps (w.opened p o) :=
  ⟨extends_opened w p o, .of_eq rfl rfl, fun hu => by simpa [opened] using hu⟩

theorem keeps_addFunction (g : Function) : w.Keeps (w.withStore (w.store.addFunction g).2) :=
  ⟨extends_withStore (Store.extends_addFunction g), .of_eq rfl rfl, id⟩

/-- A new environment holds nothing. -/
theorem holds_opened (w : World) (p : EnvId) (o : Origin) (name : String) :
    (w.opened p o).store.holds (w.store.addEnvironment (some p)).1 name = false := by
  rw [Bool.eq_false_iff]
  intro hholds
  have hhas := Store.has_of_holds (σ := w.store) (by simpa [opened] using hholds)
  exact Store.ne_addEnvironment (some p) hhas rfl

namespace Receivers

/-- Changes that make no class: what is new has to be accounted for. -/
theorem grow (h : w.Receivers bs) (hk : w.Keeps w') (new : List Binding)
    (hlength : w'.origins.length = w'.store.environments.size) (hnew : ∀ b ∈ new, b.Fits w')
    (hholder : ∀ e, w'.store.holds e Keyword.thisWord.text →
      w.store.holds e Keyword.thisWord.text ∨ ∃ b ∈ new, b.env = e)
    (hfunctions : ∀ f fn, w'.store.function? f = some fn →
      w.store.function? f = some fn ∨ fn.Traced w' (bs ++ new))
    (hcalls : ∀ e fn arguments, w'.origin? e = some (.call fn arguments) →
      w.origin? e = some (.call fn arguments) ∨
        w'.store.parent? e = some fn.closure ∧ fn.Traced w' (bs ++ new))
    (hclasses : w'.store.classes = w.store.classes) : w'.Receivers (bs ++ new) := by
  -- no class declares anything new
  have hclass : ∀ c, w'.store.class? c = w.store.class? c := fun c => by
    rw [Store.class?, Store.class?, hclasses]
  have hdeclares : ∀ {static c f}, w'.store.Declares static c f → w.store.Declares static c f := by
    rintro static c f ⟨cls, name, hcls, hf⟩
    exact ⟨cls, name, hclass c ▸ hcls, hf⟩
  refine ⟨hlength, fun b hb => ?bound, fun he => ?holder, fun {f fn} hf => ?functions,
    fun {e fn arguments} he => ?calls, fun hc hf => ?belongs,
    fun hf hf' => h.unique (hdeclares hf) (hdeclares hf')⟩
  case bound =>
    rcases List.mem_append.1 hb with hb | hb
    · exact hk.fits (h.bound b hb)
    · exact hnew b hb
  case holder =>
    rcases hholder _ he with he | ⟨b, hb, henv⟩
    · obtain ⟨b, hb, henv⟩ := h.holder he
      exact ⟨b, List.mem_append_left _ hb, henv⟩
    · exact ⟨b, List.mem_append_right _ hb, henv⟩
  case functions =>
    rcases hfunctions f fn hf with hf | hf
    · exact (hk.traced (h.functions hf)).append new
    · exact hf
  case calls =>
    rcases hcalls e fn arguments he with he | he
    · exact ⟨hk.extend.store.parents (h.calls he).1, (hk.traced (h.calls he).2).append new⟩
    · exact he
  case belongs =>
    obtain ⟨fn, hfn, hbelongs⟩ := h.belongs (hclass _ ▸ hc) (hdeclares hf)
    exact ⟨fn, hk.extend.store.functions hfn, hk.belongs hbelongs⟩

/-- Changes that make no class and bind no method. -/
theorem keep (h : w.Receivers bs) (hk : w.Keeps w')
    (hlength : w'.origins.length = w'.store.environments.size)
    (hholder : ∀ e, w'.store.holds e Keyword.thisWord.text → w.store.holds e Keyword.thisWord.text)
    (hfunctions : ∀ f fn, w'.store.function? f = some fn →
      w.store.function? f = some fn ∨ fn.Traced w' bs)
    (hcalls : ∀ e fn arguments, w'.origin? e = some (.call fn arguments) →
      w.origin? e = some (.call fn arguments) ∨
        w'.store.parent? e = some fn.closure ∧ fn.Traced w' bs)
    (hclasses : w'.store.classes = w.store.classes) : w'.Receivers bs := by
  have hgrow := h.grow hk [] hlength (by simp) (fun e he => .inl (hholder e he))
    (by simpa using hfunctions) (by simpa using hcalls) hclasses
  rwa [List.append_nil] at hgrow

/-- A variable is set that is no reserved word. -/
theorem define (h : w.Receivers bs) (he : w.store.Has e) (hname : ∀ k : Keyword, name ≠ k.text)
    (v : Value) : (w.withStore (w.store.define e name v)).Receivers bs := by
  refine h.keep (keeps_define he fun k hk => absurd hk.symm (hname k))
    (by simpa [withStore] using h.length) (fun a ha => ?_) (fun _ _ => .inl) (fun _ _ _ => .inl) rfl
  simpa [withStore, Store.holds_define he, (hname .thisWord).symm] using ha

/-- An environment is opened. -/
theorem opened (h : w.Receivers bs) (p : EnvId)
    (ho : ∀ fn arguments, o = .call fn arguments → fn.closure = p ∧ fn.Traced w bs) :
    (w.opened p o).Receivers bs := by
  have hk := keeps_opened (w := w) (p := p) (o := o)
  refine h.keep hk (by simp [World.opened, h.length])
    (fun a ha => by simpa [World.opened] using ha) (fun _ _ => .inl)
    (fun a fn arguments ha => ?_) rfl
  rw [World.opened, origin?, List.getElem?_append] at ha
  split at ha
  · exact .inl ha
  · next hlt =>
    obtain ⟨hself, rfl⟩ : a.index - w.origins.length = 0 ∧ o = .call fn arguments := by
      simpa [List.getElem?_singleton, Option.ite_none_right_eq_some] using ha
    obtain ⟨hclosure, htraced⟩ := ho fn arguments rfl
    have hindex : a.index = w.store.environments.size := by
      rw [← h.length]
      omega
    obtain rfl : a = (w.store.addEnvironment (some p)).1 := congrArg EnvId.mk hindex
    exact .inr ⟨by rw [parent?_opened, hclosure], hk.traced htraced⟩

/-- A function is added. -/
theorem addFunction (h : w.Receivers bs) {g : Function} (hg : g.Traced w bs) :
    (w.withStore (w.store.addFunction g).2).Receivers bs := by
  refine h.keep (keeps_addFunction g) h.length (fun _ => id) (fun f fn hf => ?_)
    (fun _ _ _ => .inl) rfl
  rcases Store.function?_addFunction hf with rfl | hf
  · exact .inr ((keeps_addFunction fn).traced hg)
  · exact .inl hf

/-- An instance is added. -/
theorem addInstance (h : w.Receivers bs) (c : ClassId) :
    (w.withStore (w.store.addInstance c).2).Receivers bs :=
  h.keep ⟨extends_withStore (Store.extends_addInstance c), Store.retains_addInstance c, id⟩ h.length
    (fun _ => id) (fun _ _ => .inl) (fun _ _ _ => .inl) rfl

/-- A field is set. -/
theorem setField (h : w.Receivers bs) (i : InstanceId) (name : String) (v : Value) :
    (w.withStore (w.store.setField i name v)).Receivers bs :=
  h.keep ⟨extends_withStore (Store.extends_setField i), Store.retains_setField i name v, id⟩
    h.length (fun _ => id) (fun _ _ => .inl) (fun _ _ _ => .inl) rfl

/-- Further programs are accepted. -/
theorem withSites (h : w.Receivers bs) {K : Site → Prop} (hK : ∀ p, w.sites p → K p) :
    Receivers { w with sites := K } bs :=
  h.keep ⟨⟨fun hp => hK _ hp, .refl _, List.prefix_refl _⟩, .refl _, id⟩ h.length
    (fun _ => id) (fun _ _ => .inl) (fun _ _ _ => .inl) rfl

/-! ## Methods that get a receiver -/

/-- A method gets a receiver that it is meant for. -/
theorem copyFor (h : w.Receivers bs) (hfn : w.store.function? f = some fn)
    (hdeclares : w.store.Declares static c f) (hv : w.store.Receives static c v) :
    (w.grown (w.store.copyFor fn v).2 [.receiver fn.decl]).Receivers
        (bs ++ [⟨(w.store.addEnvironment none).1, f⟩]) ∧
      (w.store.copyFor fn v).1.Copies ⟨(w.store.addEnvironment none).1, f⟩
        (w.store.copyFor fn v).2 := by
  have hopened := h.opened fn.closure (o := .receiver fn.decl) (by simp)
  have hhas := w.has_opened fn.closure (.receiver fn.decl)
  have hkeeps := keeps_define (v := v) hhas fun k _ =>
    w.holds_opened fn.closure (.receiver fn.decl) Keyword.thisWord.text
  have hall := (keeps_opened (w := w) (p := fn.closure) (o := .receiver fn.decl)).trans hkeeps
  have horigin : (w.opened fn.closure (.receiver fn.decl)).origin?
      (w.store.addEnvironment (some fn.closure)).1 = some (.receiver fn.decl) := by
    simp [origin?, World.opened, Store.addEnvironment, ← h.length]
  refine ⟨hopened.grow hkeeps [⟨(w.store.addEnvironment none).1, f⟩]
    (by simpa [withStore] using hopened.length) (fun b hb => ?_) (fun e he => ?_) (fun _ _ => .inl)
    (fun _ _ _ => .inl) rfl, fn, hfn, rfl⟩
  · obtain rfl := List.mem_singleton.1 hb
    refine ⟨fn, v, static, c, hfn, ?_, horigin, ?_, hall.store.declares hdeclares,
      hall.store.receives hv⟩
    · exact hkeeps.extend.store.parents (w.parent?_opened fn.closure _)
    · exact (Store.binding?_define hhas).trans (if_pos ⟨rfl, rfl⟩)
  · simp only [withStore, Store.holds_define hhas, Bool.or_eq_true, decide_eq_true_eq] at he
    rcases he with ⟨rfl, -⟩ | he
    · exact .inr ⟨_, .head _, rfl⟩
    · exact .inl he

/-- A property that is a method gets its value. -/
theorem realize (h : w.Receivers bs) (hfn : w.store.function? f = some fn)
    (hdeclares : w.store.Declares static c f) (hv : w.store.Receives static c v) :
    (w.grown (w.store.realize (.method fn v)).2 [.receiver fn.decl]).Receivers
      (bs ++ [⟨(w.store.addEnvironment none).1, f⟩]) := by
  obtain ⟨hcopy, hcopies⟩ := h.copyFor hfn hdeclares hv
  exact hcopy.addFunction (.inl ⟨_, List.mem_append_right _ (.head _), hcopies⟩)

/-! ## Scopes and functions -/

theorem defineAll (h : w.Receivers bs) (he : w.store.Has e) {entries : List (String × Value)}
    (hnames : ∀ x ∈ entries, ∀ k : Keyword, x.1 ≠ k.text) :
    (w.withStore (w.store.defineAll e entries)).Receivers bs := by
  induction entries generalizing w with
  | nil => exact h
  | cons x rest ih =>
    exact ih (h.define he (hnames x (.head _)) x.2) (Store.has_define.2 he)
      fun y hy => hnames y (.tail _ hy)

/-- A call begins. -/
theorem enterFunction (h : w.Receivers bs) (hfn : fn.Traced w bs)
    (hparams : ∀ p ∈ fn.decl.params, p.IsName) (arguments : List Value) :
    (w.grown (callStore w.store fn arguments) [.call fn arguments]).Receivers bs := by
  have hopened := h.opened fn.closure (o := .call fn arguments) fun _ _ heq => by
    cases heq
    exact ⟨rfl, hfn⟩
  refine hopened.defineAll (w.has_opened _ _) fun x hx k => ?_
  obtain ⟨p, hp, hname⟩ := List.mem_map.1 (List.of_mem_zip hx).1
  exact hname ▸ (hparams p hp).ne_text k

end Receivers

/-- The environment of a place that stands in no scope of a class. -/
def Plain (w : World) (e : EnvId) : Prop :=
  ∃ o, w.origin? e = some o ∧ o.isReceiver = false ∧ o.isSuperclass = false

theorem Mirrors.plain (hw : w.Sound) {scopes : List Scope} {os : List Opener}
    (h : w.Mirrors e scopes os) (hos : ∀ o ∈ os.head?, o.ofClass = false) : w.Plain e := by
  cases h with
  | globals => exact ⟨.globals, hw.globals, rfl, rfl⟩
  | @inside e p o scope scopes opener openers ho hfor =>
    have hopener := hos opener rfl
    refine ⟨o, ho, ?_⟩
    cases opener with
    | receiver | superclass => cases hopener
    | block | function => cases o <;> first | exact ⟨rfl, rfl⟩ | cases hfor

namespace Receivers

/-! ## Classes -/

/-- The environment in which the methods of a class are declared. -/
theorem enterClass (h : w.Receivers bs) (he : w.Plain e) (m : Members) (s : Option ClassId) :
    let w' := w.grown (w.store.enterClass e s).2 (superOrigins m s)
    w'.Receivers bs ∧ w.Keeps w' ∧ ∀ fn : Function, fn.closure = (w.store.enterClass e s).1 →
      fn.Traced w' bs ∧ ∀ static, fn.decl ∈ m.list static → fn.Belongs w' static s := by
  intro w'
  obtain ⟨o, ho, hreceiver, hsuperclass⟩ := he
  cases s with
  | none =>
    have hw : w' = w := by simp [w', grown, Store.enterClass, superOrigins]
    rw [hw]
    refine ⟨h, .refl w, fun fn hfn => ?_⟩
    have hclosure : w.origin? fn.closure = some o := hfn ▸ ho
    exact ⟨.inr ⟨o, hclosure, hreceiver⟩, fun _ _ => ⟨o, hclosure, hsuperclass⟩⟩
  | some d =>
    have hopened := h.opened e (o := .superclass m) (by simp)
    have hhas := w.has_opened e (.superclass m)
    have hkeeps := keeps_define (v := .class d) hhas fun k _ =>
      w.holds_opened e (.superclass m) Keyword.superWord.text
    have horigin : w'.origin? (w.store.addEnvironment (some e)).1 = some (.superclass m) := by
      simp [w', origin?, grown, superOrigins, Store.addEnvironment, ← h.length]
    have hlength : (w.opened e (.superclass m)).origins.length =
        ((w.opened e (.superclass m)).store.define (w.store.addEnvironment (some e)).1
          Keyword.superWord.text (.class d)).environments.size := by
      rw [Store.size_define, hopened.length]
    refine ⟨hopened.keep hkeeps hlength (fun a ha => ?_) (fun _ _ => .inl) (fun _ _ _ => .inl) rfl,
      keeps_opened.trans hkeeps, fun fn hfn => ?_⟩
    · have ha' := (Store.holds_define hhas).symm.trans ha
      simp only [Bool.or_eq_true, decide_eq_true_eq] at ha'
      exact ha'.resolve_left fun hsuper => absurd hsuper.2 (by decide)
    · have hclosure : fn.closure = (w.store.addEnvironment (some e)).1 := hfn
      rw [← hclosure] at horigin
      refine ⟨.inr ⟨_, horigin, rfl⟩, fun static hmem => ⟨?_, m, horigin, hmem⟩⟩
      rw [hclosure]
      exact (Store.binding?_define hhas).trans (if_pos ⟨rfl, rfl⟩)

/-- Methods are added. -/
theorem addMethods (h : w.Receivers bs) (initializers : Bool) (table : Table FunId)
    (decls : List (FunDecl Occurrence))
    (hdecls : ∀ fn : Function, fn.closure = e → fn.Traced w bs) :
    (w.withStore (w.store.addMethods e initializers table decls).2).Receivers bs ∧
      w.Keeps (w.withStore (w.store.addMethods e initializers table decls).2) := by
  induction decls generalizing w table with
  | nil => exact ⟨h, .refl w⟩
  | cons decl rest ih =>
    let g : Function := ⟨decl, e, initializers && decl.isInitName⟩
    have hkeeps := keeps_addFunction (w := w) g
    have hrest := ih (w := w.withStore (w.store.addFunction g).2) (h.addFunction (hdecls g rfl))
      (table.set decl.name.lexeme (w.store.addFunction g).1)
      fun fn hfn => hkeeps.traced (hdecls fn hfn)
    exact ⟨hrest.1, hkeeps.trans hrest.2⟩

/-- A class is added whose methods belong to no other class. -/
theorem addClass (h : w.Receivers bs) {cls : Class}
    (hbelongs : ∀ {static f name}, (cls.table static).find? name = some f →
      ∃ fn, w.store.function? f = some fn ∧ fn.Belongs w static cls.superclass)
    (hnew : ∀ {static f name}, (cls.table static).find? name = some f →
      ∀ {static' c}, ¬ w.store.Declares static' c f)
    (hkinds : ∀ {static static' f name name'}, (cls.table static).find? name = some f →
      (cls.table static').find? name' = some f → static = static') :
    (w.withStore (w.store.addClass cls).2).Receivers bs := by
  have hkeeps : w.Keeps (w.withStore (w.store.addClass cls).2) :=
    ⟨extends_withStore (Store.extends_addClass cls), Store.retains_addClass cls, id⟩
  refine ⟨h.length, fun b hb => hkeeps.fits (h.bound b hb), h.holder,
    fun hf => hkeeps.traced (h.functions hf),
    fun he => ⟨(h.calls he).1, hkeeps.traced (h.calls he).2⟩, fun hc hf => ?_, fun hf hf' => ?_⟩
  · rcases Store.declares_addClass hf with hf | ⟨rfl, name, hf⟩
    · obtain ⟨old, name, hold, hfind⟩ := hf
      obtain rfl : old = _ := Option.some.inj ((hkeeps.store.classes hold).symm.trans hc)
      obtain ⟨fn, hfn, hbelongs⟩ := h.belongs hold ⟨old, name, hold, hfind⟩
      exact ⟨fn, hfn, hkeeps.belongs hbelongs⟩
    · rw [withStore, Store.class?_addClass_self] at hc
      cases hc
      obtain ⟨fn, hfn, hbelongs⟩ := hbelongs hf
      exact ⟨fn, hfn, hkeeps.belongs hbelongs⟩
  · -- two classes that declare a method are old, or both are the new one
    rcases Store.declares_addClass hf with hf | ⟨rfl, name, hf⟩ <;>
      rcases Store.declares_addClass hf' with hf' | ⟨rfl, name', hf'⟩
    · exact h.unique hf hf'
    · exact absurd hf (hnew hf')
    · exact absurd hf' (hnew hf)
    · exact ⟨hkinds hf hf', rfl⟩

/-- A method of a class is a function that was there before the next class. -/
theorem index_lt (h : w.Receivers bs) (hf : w.store.Declares static c f) :
    f.index < w.store.functions.size := by
  obtain ⟨cls, name, hcls, hfind⟩ := hf
  obtain ⟨fn, hfn, -⟩ := h.belongs hcls ⟨cls, name, hcls, hfind⟩
  exact (Array.getElem?_eq_some_iff.1 hfn).1

/-- A class is made. -/
theorem makeClass (h : w.Receivers bs) (he : w.Plain e) (name : Token) (s : Option ClassId)
    (statics methods : List (FunDecl Occurrence)) :
    (w.grown (w.store.makeClass e name.lexeme s statics methods).2
      (superOrigins ⟨name, statics, methods⟩ s)).Receivers bs := by
  obtain ⟨henter, -, hinner⟩ := h.enterClass he ⟨name, statics, methods⟩ s
  obtain ⟨hmethods, hkeeps⟩ := henter.addMethods true .empty methods
    fun fn hfn => (hinner fn hfn).1
  obtain ⟨hstatics, hkeeps'⟩ := hmethods.addMethods false .empty statics
    fun fn hfn => hkeeps.traced (hinner fn hfn).1
  let σ := (w.store.enterClass e s).2
  let inner := (w.store.enterClass e s).1
  let τ := (σ.addMethods inner true .empty methods).2
  let υ := (τ.addMethods inner false .empty statics).2
  let cls : Class :=
    ⟨name.lexeme, s, (σ.addMethods inner true .empty methods).1,
      (τ.addMethods inner false .empty statics).1⟩
  have hnewMethods : Store.HoldsNew σ τ inner methods cls.methods :=
    Store.holdsNew_addMethods true methods
  have hnewStatics : Store.HoldsNew τ υ inner statics cls.statics :=
    Store.holdsNew_addMethods false statics
  -- the methods of both kinds are newer than those of the classes before
  have hnew : ∀ static, Store.HoldsNew σ υ inner (Members.list ⟨name, statics, methods⟩ static)
      (cls.table static) := by
    intro static
    cases static with
    | false => exact Store.HoldsNew.later hnewMethods hkeeps'.extend.store
    | true => exact Store.HoldsNew.since hnewStatics hkeeps.extend.store
  refine @addClass _ _ hstatics cls (fun {static _ _} hf => ?_) (fun hf _ d hdeclares => ?_)
    fun {static static' _ _ _} hf hf' => ?_
  -- they are declared where the class keeps its superclass
  · obtain ⟨-, fn, hfn, hclosure, hdecl⟩ := hnew static hf
    exact ⟨fn, hfn, hkeeps'.belongs (hkeeps.belongs ((hinner fn hclosure).2 static hdecl))⟩
  -- a class from before holds older functions only
  · obtain ⟨old, n, hold, hfind⟩ := hdeclares
    have hclasses : υ.classes = σ.classes :=
      (Store.classes_addMethods false _ statics).trans (Store.classes_addMethods true _ methods)
    have hbefore : σ.class? d = some old := by
      rw [Store.class?, ← hclasses]
      exact hold
    have hlt := henter.index_lt ⟨old, n, hbefore, hfind⟩
    exact Nat.not_lt.2 (hnew _ hf).1 hlt
  · cases static <;> cases static'
    · rfl
    · exact absurd hf' (Store.HoldsNew.disjoint hnewMethods hnewStatics hf)
    · exact absurd hf (Store.HoldsNew.disjoint hnewMethods hnewStatics hf')
    · rfl

/-- A class is declared. -/
theorem declareClass (h : w.Receivers bs) (hhas : w.store.Has e) (he : w.Plain e) {name : Token}
    (hname : name.IsName) (s : Option ClassId) (statics methods : List (FunDecl Occurrence)) :
    (w.grown (classStore w.store e name.lexeme s statics methods)
      (superOrigins ⟨name, statics, methods⟩ s)).Receivers bs := by
  have hmake := (h.define hhas hname.ne_text .nil).makeClass he name s statics methods
  refine hmake.define ?_ hname.ne_text _
  rw [Store.Has, ← hmake.length]
  refine Nat.lt_of_lt_of_le hhas ?_
  rw [← h.length]
  exact (List.prefix_append _ _).length_le

end Receivers

/-- The world of a new session. -/
theorem receivers_fresh : fresh.Receivers [] where
  length := rfl
  bound b hb := by cases hb
  holder {e} he := by
    obtain ⟨v, hv⟩ := Option.isSome_iff_exists.1 he
    obtain ⟨env, henv, hv⟩ := Option.bind_eq_some_iff.1 hv
    exact absurd ((environment?_fresh henv).2 _ v hv).1 (by decide)
  functions hf := by cases hf
  calls {e fn arguments} he := by
    obtain ⟨i⟩ := e
    cases i <;> cases he
  belongs hc := by cases hc
  unique hf := by
    obtain ⟨cls, name, hcls, -⟩ := hf
    cases hcls

end World

end Lox
