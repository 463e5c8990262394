import Lox.Proofs.Machine.Frames

/-!
# What references and properties stand for

In a sound world a look-up ends with what fits, or with a runtime error, and never with an
internal fault: recorded distances lead to environments that hold the name, what `super` stands
for is a class, and a method that is found is one.

## Main definitions

* `Regular`: a result that fits, or a runtime error

## Main results

* `State.regular_readVariable`, `State.regular_variableOwner`, `State.regular_readSuper`
* `Store.regular_property`, `State.regular_initializer`
-/

namespace Lox

/-- A result for which something holds, or a runtime error. -/
def Regular {α : Type} (P : α → Prop) (r : Except Abort α) : Prop :=
  (∃ a, r = .ok a ∧ P a) ∨ ∃ e, r = .error (.error e)

/-- What an operation makes of a result that fits. -/
theorem Regular.made {w : World} {r : Except Abort Value} (h : Regular (·.Fits w) r) (n : Nat) :
    Regular (·.Fits w) (r.map (·.made n)) := by
  rcases h with ⟨v, rfl, hv⟩ | ⟨e, rfl⟩
  · exact .inl ⟨_, rfl, fun f hf => hv f (Value.made_eq_function.1 hf)⟩
  · exact .inr ⟨e, rfl⟩

section Store

variable {w : World} {e : EnvId} {v : Value}

/-- A search finds an environment that holds the name. -/
theorem Store.regular_owner (σ : Store) (e : EnvId) (t : Token) :
    Regular (fun a => σ.holds a t.lexeme) (σ.owner e t) := by
  unfold Store.owner
  cases h : σ.owner? e t.lexeme with
  | none => exact .inr ⟨_, rfl⟩
  | some a => exact .inl ⟨a, rfl, by simpa using List.find?_some h⟩

theorem Store.regular_get (h : w.Sound) (e : EnvId) (t : Token) :
    Regular (·.Fits w) (w.store.get e t) := by
  unfold Store.get
  rcases w.store.regular_owner e t with ⟨a, ha, hholds⟩ | ⟨err, herr⟩
  · obtain ⟨v, hv, hbinding⟩ := Store.valueIn_of_holds hholds
    exact .inl ⟨v, by simp [ha, hv], h.values hbinding⟩
  · exact .inr ⟨err, by simp [herr]⟩

/-! ## Methods -/

theorem Store.regular_function {f : FunId} {P : Function → Prop}
    (h : ∃ fn, w.store.function? f = some fn ∧ P fn) :
    ∃ fn, w.store.function f = .ok fn ∧ P fn := by
  obtain ⟨fn, hfn, hP⟩ := h
  exact ⟨fn, by simp [Store.function, hfn], hP⟩

/-- A method that a class or one of its superclasses declares is a method. -/
theorem World.Sound.findMethod? (h : w.Sound) {c : ClassId} {name : String} {f : FunId}
    (hf : w.store.findMethod? c name = some f) :
    ∃ fn, w.store.function? f = some fn ∧ fn.FitsMethod w := by
  obtain ⟨d, -, hd⟩ := List.exists_of_findSome?_eq_some hf
  obtain ⟨cls, hcls, hfind⟩ := Option.bind_eq_some_iff.1 hd
  exact (h.methods hcls).1 name f hfind

theorem World.Sound.findStatic? (h : w.Sound) {c : ClassId} {name : String} {f : FunId}
    (hf : w.store.findStatic? c name = some f) :
    ∃ fn, w.store.function? f = some fn ∧ fn.FitsMethod w := by
  obtain ⟨d, -, hd⟩ := List.exists_of_findSome?_eq_some hf
  obtain ⟨cls, hcls, hfind⟩ := Option.bind_eq_some_iff.1 hd
  exact (h.methods hcls).2 name f hfind

theorem Store.regular_methodFor {found : Option FunId} {receiver : Value} (t : Token)
    (hfound : ∀ f ∈ found, ∃ fn, w.store.function? f = some fn ∧ fn.FitsMethod w)
    (hv : receiver.Fits w) : Regular (·.Fits w) (w.store.methodFor found receiver t) := by
  cases found with
  | none => exact .inr ⟨_, rfl⟩
  | some f =>
    obtain ⟨fn, hfn, hfits⟩ := Store.regular_function (hfound f rfl)
    exact .inl ⟨.method fn receiver, by simp [Store.methodFor, hfn, Except.map], hfits, hv⟩

/-- The properties of a value. -/
theorem Store.regular_property (h : w.Sound) (hv : v.Fits w) (t : Token) :
    Regular (·.Fits w) (w.store.property v t) := by
  unfold Store.property
  split
  · next i =>
    split
    · next u hu => exact .inl ⟨.field u, rfl, h.fields hu⟩
    · refine Store.regular_methodFor t (fun f hf => ?_) hv
      obtain ⟨inst, -, hfind⟩ := Option.bind_eq_some_iff.1 (Option.mem_def.1 hf)
      exact h.findMethod? hfind
  · exact Store.regular_methodFor t (fun f hf => h.findStatic? hf) hv
  · exact .inr ⟨_, rfl⟩

end Store

/-! ## References -/

namespace State

variable {st : State} {setup : Setup} {K : Site → Prop} {O : List Origin} {c : Context}
  {os : List Opener} {r : Ref Occurrence}

/-- A reference whose distances lead to names that have ended. -/
theorem regular_readVariable (h : (st.world K O).Sound)
    (hm : (st.world K O).Mirrors st.environment c.scopes os)
    (hfind : ∀ d, setup.locals.distance? r.mark = some d →
      (c.scopes[d]?).bind (·.find? r.token.lexeme) = some true) :
    Regular (·.Fits (st.world K O)) (st.readVariable setup r) := by
  unfold readVariable
  cases hd : setup.locals.distance? r.mark with
  | none => exact Store.regular_get h _ _
  | some d =>
    obtain ⟨a, v, -, hbinding, hget⟩ := hm.getAt (hfind d hd)
    exact .inl ⟨v, hget, h.values hbinding⟩

/-- The environment of an assignment may hold the name. -/
theorem regular_variableOwner (h : (st.world K O).Sound) (hs : Surveyed setup.locals K)
    {value : ExprCode} (hsite : K ⟨c, os, .expression (.assign r value)⟩)
    (hm : (st.world K O).Mirrors st.environment c.scopes os) :
    Regular (fun a => st.store.Has a ∧
      ∀ o, (st.world K O).origin? a = some o → o.Allows r.token.lexeme)
      (st.variableOwner setup r) := by
  unfold variableOwner
  cases hd : setup.locals.distance? r.mark with
  | none =>
    rcases st.store.regular_owner Store.globals r.token with ⟨a, ha, hholds⟩ | herr
    · exact .inl ⟨a, ha, Store.has_of_holds hholds, fun o ho => h.names hholds ho⟩
    · exact .inr herr
  | some d =>
    obtain ⟨hle, hnames⟩ := hs.names_assign hsite hd
    obtain ⟨a, ha, hm'⟩ := hm.ancestor hle
    exact .inl ⟨a, ha, hm'.has h, fun o ho => hm'.allows h hnames ho⟩

/-- What `super` and `this` stand for at a use of `super`. -/
theorem getAt_super (h : (st.world K O).Sound) (hs : Surveyed setup.locals K) {method : Token}
    (hsite : K ⟨c, os, .expression (.super r method)⟩)
    (hm : (st.world K O).Mirrors st.environment c.scopes os) :
    ∃ d cls v, setup.locals.distance? r.mark = some (d + 1) ∧
      st.store.getAt st.environment (d + 1) "super" = .ok (.class cls) ∧
      st.store.getAt st.environment d "this" = .ok v ∧ v.Fits (st.world K O) := by
  obtain ⟨d, hd, hsuper, hthis⟩ := hs.find?_super hsite
  obtain ⟨a, v, -, hbinding, hget⟩ := hm.getAt hsuper
  obtain ⟨a', v', -, hbinding', hget'⟩ := hm.getAt hthis
  obtain ⟨cls, rfl⟩ := h.super hbinding
  exact ⟨d, cls, v', hd, hget, hget', h.values hbinding'⟩

/-- The method that a use of `super` finds. -/
theorem regular_readSuper (h : (st.world K O).Sound) (hs : Surveyed setup.locals K)
    {method : Token} (hsite : K ⟨c, os, .expression (.super r method)⟩)
    (hm : (st.world K O).Mirrors st.environment c.scopes os) :
    Regular (·.Fits (st.world K O)) (st.readSuper setup r method) := by
  obtain ⟨d, cls, v, hd, hsuper, hthis, hv⟩ := getAt_super h hs hsite hm
  have hread : st.readSuper setup r method = st.store.methodAbove (.class cls) v method := by
    simp [readSuper, hd, Store.superMethod, hsuper, hthis]
  rw [hread]
  cases v with
  | «class» d => exact Store.regular_methodFor method (fun f hf => h.findStatic? hf) hv
  | _ => exact Store.regular_methodFor method (fun f hf => h.findMethod? hf) hv

/-- The initializer of a class. -/
theorem regular_initializer (h : (st.world K O).Sound) (c : ClassId) :
    ∃ init, st.initializer c = .ok init ∧ ∀ fn ∈ init, fn.FitsMethod (st.world K O) := by
  unfold initializer
  cases hf : st.store.findMethod? c "init" with
  | none => exact ⟨none, rfl, by simp⟩
  | some f =>
    obtain ⟨fn, hfn, hfits⟩ := Store.regular_function (w := st.world K O) (h.findMethod? hf)
    exact ⟨some fn, congrArg (Except.map some) hfn, by simpa using hfits⟩

end State

end Lox
