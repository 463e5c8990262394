import Lox.Proofs.Machine.Construction
import Lox.Proofs.Session.Heap
import Lox.Proofs.Session.Returns

/-!
# Objects that are made in a session

At every moment of the run of an accepted text, whatever texts came before, the call of a class is
cut off at once for the number of its arguments, or makes an instance that was not there, and has it
as its value unless the body of the initializer is cut off or goes on for ever. An initializer that
was read from an instance has that instance as its value.

## Main results

* `Store.exists_boundInitializer`: an initializer that is read from an instance
* `Session.construction`: the calls of classes and of initializers
-/

namespace Lox

namespace Store

variable {σ : Store} {i : InstanceId} {name : Token} {p : Property}

/-- What is read under the name of an initializer from an instance without such a field is an
initializer with the instance as its receiver. -/
theorem exists_boundInitializer (h : σ.Initializes) (hname : name.lexeme = "init")
    (hfield : σ.field? i "init" = none) (hp : σ.property (.instance i) name = .ok p) :
    ∃ f, (σ.realize p).1 = .function f ∧ (σ.realize p).2.BoundInitializer f i := by
  simp only [property, hname, hfield, methodFor] at hp
  cases hfound : σ.instanceMethod? i "init" with
  | none =>
    rw [hfound] at hp
    cases hp
  | some g =>
    cases hfn : σ.function g with
    | error a =>
      simp only [hfound, hfn] at hp
      cases hp
    | ok fn =>
      simp only [hfound, hfn] at hp
      obtain rfl : Property.method fn (.instance i) = p := Except.ok.inj hp
      obtain ⟨inst, -, hmethod⟩ := Option.bind_eq_some_iff.1 hfound
      have hinit := h.findMethod? hmethod (function?_of_function hfn)
      refine ⟨_, rfl, _, function?_addFunction_self _ _, hinit, ?_⟩
      exact (binding?_define (has_addEnvironment_self _)).trans (if_pos ⟨rfl, rfl⟩)

/-- The functions of a store from which something was read. -/
theorem Genuine.realize (h : σ.Genuine) {v : Value} (hp : σ.property v name = .ok p) :
    (σ.realize p).2.Genuine := by
  cases p with
  | field w => exact h
  | method fn receiver =>
    intro g gn hg
    rcases function?_addFunction hg with rfl | hg
    · obtain ⟨f, hf⟩ := method_of_property hp rfl
      exact h f fn hf
    · exact h g gn hg

end Store

namespace Config

variable {setup : Setup} {K : Site → Prop} {O : List Origin} {c : Config}

/-- The functions of programs in which nothing is reported are genuine. -/
theorem Governed.genuine (h : c.Governed setup K O) : c.state.store.Genuine := by
  intro f fn hfn
  obtain ⟨kind, context, openers, hsite, -⟩ := h.declared.functions f fn hfn
  exact (h.surveyed.settled hsite).genuine

end Config

namespace Session

/-- Calls of classes and of initializers.

At every moment of a run a class takes as many arguments as the nearest method `init` of its
instances has parameters, from the class itself upwards, or none where there is no such method. With
another number of arguments, and only then, its call is cut off for that at once, in the same state.
Otherwise it makes an instance that was not there, to which nothing refers and which nothing that is
left to do holds, and that is one of the very class: the instance is the value of the call whatever
the body of the initializer comes to, unless that is cut off or goes on for ever, and then the call
is and does so too, or is not reached because too many calls are nested. An initializer with an
instance as its receiver, as it is read from the instance, has no other value than this
instance. -/
theorem construction (texts : List (Options × String)) (o : Options) (source : String)
    (r : Resolved) (hr : (ofTexts texts).accepted? source = some r) :
    let start := (ofTexts texts).launch r
    let setup := (ofTexts texts).setupFor o r
    ∀ n d, start.after? setup n = some d →
      let st := d.state
      (∀ c, st.store.Contains (.class c) → ∃ init, st.store.HasInitializer c init ∧
        st.store.arity? (.class c) = some (State.initializerArity init) ∧
        ∀ arguments paren,
          ((∀ k, st.call setup (.class c) arguments paren k = .halt (.aborted (.atToken paren
              (.wrongArity (State.initializerArity init) arguments.length))) st) ↔
            arguments.length ≠ State.initializerArity init) ∧
          (arguments.length = State.initializerArity init → ∃ i,
            (¬ st.store.Contains (.instance i) ∧ (∀ a, ¬ st.store.Refers a (.instance i)) ∧
              .instance i ∉ d.control.objects) ∧
            Constructs setup st c arguments paren i init)) ∧
      (∀ f i, st.store.BoundInitializer f i → ∀ arguments paren t v st',
        Calls setup st (.function f) arguments paren t (.ok v) st' → v = .instance i) ∧
      ∀ i name p, name.lexeme = "init" → st.store.field? i "init" = none →
        st.store.property (.instance i) name = .ok p → ∀ arguments paren t v st',
          Calls setup (st.realize p).2 (st.realize p).1 arguments paren t (.ok v) st' →
            v = .instance i := by
  intro start setup n d hd st
  have hgoverned := (governed_launch hr o).after hd
  have hlinked : d.Linked (ofTexts texts).store :=
    Config.linked_after (linked_launch (advances_texts Store.linked_fresh texts).linked r) hd
  refine ⟨fun c hc => ?_, fun f i hf arguments paren t v st' hcall => ?_,
    fun i name p hname hfield hp arguments paren t v st' hcall => ?_⟩
  · obtain ⟨init, hinit, hnearest⟩ := State.exists_initializer hlinked.linked hc
    refine ⟨init, hnearest, State.arity?_class hinit, fun arguments paren =>
      ⟨call_class_eq_wrongArity_iff hinit, fun hlength => ⟨_, ?_, constructs hinit hlength⟩⟩⟩
    -- the next instance is beyond the end
    have hnew : ¬ st.store.Contains (.instance (st.addInstance c).1) := by
      rintro ⟨inst, hinst⟩
      simp [Store.instance?, State.addInstance, Store.addInstance] at hinst
    exact ⟨hnew, fun a ha => hnew (hlinked.linked.contains_of_refers ha),
      fun hmem => hnew (hlinked.objects _ hmem)⟩
  · exact hf.value_eq hgoverned.genuine hcall
  · obtain ⟨f, hvalue, hbound⟩ :=
      Store.exists_boundInitializer hgoverned.declared.initializes hname hfield hp
    have hfunction : (st.realize p).1 = .function f := hvalue
    rw [hfunction] at hcall
    have hgenuine : (st.realize p).2.store.Genuine := hgoverned.genuine.realize hp
    exact Store.BoundInitializer.value_eq hbound hgenuine hcall

/-- A class whose initializer is inherited, beside a static method of that name. -/
theorem construction_inherited :
    let s := ofTexts [(Options.still,
      "class A { init(x) { return; } } class B < A { class init() {} }")]
    ∃ r d init, s.accepted? "B(1);" = some r ∧
      (s.launch r).after? (s.setupFor .still r) 3 = some d ∧
      d.state.store.HasInitializer ⟨1⟩ init ∧ ∀ paren,
        (∀ k, d.state.call (s.setupFor .still r) (.class ⟨1⟩) [] paren k =
          .halt (.aborted (.atToken paren (.wrongArity 1 0))) d.state) ∧
        ∃ i, ¬ d.state.store.Contains (.instance i) ∧
          Constructs (s.setupFor .still r) d.state ⟨1⟩ [.nil] paren i init := by
  intro s
  have hmoment : ((s.accepted? "B(1);").bind fun r =>
      ((s.launch r).after? (s.setupFor .still r) 3).map (r, ·)).any (fun x =>
        (x.2.state.store.class? ⟨1⟩).isSome ∧ x.2.state.store.arity? (.class ⟨1⟩) = some 1) := by
    decide +kernel
  obtain ⟨⟨r, d⟩, hmoment, hstore⟩ := (Option.any_eq_true ..).1 hmoment
  obtain ⟨r', hr, hmoment⟩ := Option.bind_eq_some_iff.1 hmoment
  obtain ⟨d', hd, hpair⟩ := Option.map_eq_some_iff.1 hmoment
  obtain ⟨rfl, rfl⟩ := Prod.mk.inj hpair
  obtain ⟨hclass, harity⟩ := of_decide_eq_true hstore
  obtain ⟨hclasses, -⟩ := construction _ .still "B(1);" r' hr 3 d' hd
  obtain ⟨init, hinit, hparams, hcalls⟩ := hclasses ⟨1⟩ (Option.isSome_iff_exists.1 hclass)
  have hone : State.initializerArity init = 1 := Option.some.inj (hparams.symm.trans harity)
  refine ⟨r', d', init, hr, hd, hinit, fun paren => ?_⟩
  obtain ⟨hwrong, -⟩ := hcalls [] paren
  obtain ⟨-, hright⟩ := hcalls [.nil] paren
  rw [hone] at hwrong hright
  obtain ⟨i, ⟨hnew, -⟩, hconstructs⟩ := hright rfl
  exact ⟨hwrong.2 (by simp), i, hnew, hconstructs⟩

end Session

end Lox
