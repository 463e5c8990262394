import Lox.Proofs.Machine.Receivers

/-!
# Bindings of a run

A step binds at most one method: when it reads a property of an object, when it evaluates a use
of `super`, and when it calls a class that has an initializer. Each time the method is the one
that a search finds, and the receiver is one that the methods of the class are meant for at which
the search starts. So the bindings of a run fit, step after step.

## Main definitions

* `Config.search?`: the search of which a step binds the result
* `Config.binds`, `Config.bindsWithin`: the bindings of steps

## Main results

* `World.Receivers.superSite`: what `super` and `this` stand for in a member of a class
* `Config.receivers_step`: what one step binds
* `Config.receivers_after`, `Config.receivers_run`: what the moments and the end of a run bind
-/

namespace Lox

/-! ## Searches -/

/-- The search of which reading a property binds the result: fields come first. -/
def Store.propertySearch? (σ : Store) (v : Value) (name : String) : Option Search :=
  match v with
  | .instance i =>
    match σ.field? i name with
    | some _ => none
    | none => (σ.instance? i).map fun inst => ⟨false, inst.classId, name⟩
  | .class c => some ⟨true, c, name⟩
  | _ => none

namespace State

/-- The search of which a use of `super` binds the result: for static methods where the receiver
is a class. -/
def superSearch? (st : State) (setup : Setup) (ref : Ref Occurrence) (method : Token) :
    Option Search :=
  match setup.locals.distance? ref.mark with
  | some d =>
    match st.store.getAt st.environment d "super", st.store.getAt st.environment (d - 1) "this" with
    | .ok (.class c), .ok (.class _) => some ⟨true, c, method.lexeme⟩
    | .ok (.class c), .ok _ => some ⟨false, c, method.lexeme⟩
    | _, _ => none
  | none => none

/-- The search of which a call with a number of arguments binds the result: for the initializer
of a class that is called. -/
def callSearch? (st : State) (callee : Value) (arguments : Nat) : Option Search :=
  match callee with
  | .class c => if arguments = st.store.classArity c then some ⟨false, c, "init"⟩ else none
  | _ => none

end State

namespace Config

/-- The search of which a step binds the result. -/
def search? (setup : Setup) (c : Config) : Option Search :=
  match c with
  | ⟨.evaluate (.super keyword method) _, st⟩ => st.superSearch? setup keyword method
  | ⟨.deliver v (.field name _), st⟩ => st.store.propertySearch? v name.lexeme
  | ⟨.deliver v (.callee _ [] _), st⟩ => st.callSearch? v 0
  | ⟨.deliver _ (.argument _ callee done [] _), st⟩ => st.callSearch? callee (done.length + 1)
  | _ => none

/-- What a step binds: the method that its search finds, in the next environment. -/
def binds (setup : Setup) (c : Config) : List Binding :=
  ((c.search? setup).bind c.state.store.found?).toList.map fun f =>
    ⟨(c.state.store.addEnvironment none).1, f⟩

/-- What at most a number of steps bind, in order. -/
def bindsWithin (setup : Setup) : Nat → Config → List Binding
  | 0, _ => []
  | n + 1, c =>
    c.binds setup ++ match c.step setup with
      | .next d _ => d.bindsWithin setup n
      | .halt .. => []

end Config

/-! ## Members -/

/-- Where a member of a class is called for a receiver: what `this` and `super` stand for a distance
outwards from an environment. -/
structure Store.InMember (σ : Store) (e : EnvId) (d : Nat) (b : Binding) (static : Bool)
    (c s : ClassId) (receiver : Value) : Prop where
  /-- The environment of the binding lies there. -/
  ancestor : σ.ancestor e d = .ok b.env
  /-- The method is one of the class. -/
  declares : σ.Declares static c b.method
  /-- The class has a superclass. -/
  superclass : σ.superclass? c = some s
  /-- The receiver is one that the methods of the class are meant for. -/
  receives : σ.Receives static c receiver
  /-- It is what `this` stands for. -/
  this : σ.getAt e d Keyword.thisWord.text = .ok receiver
  /-- The superclass is what `super` stands for. -/
  super : σ.getAt e (d + 1) Keyword.superWord.text = .ok (.class s)

namespace Store

variable {σ : Store} {e p a : EnvId} {d n : Nat} {name : String} {v : Value}

theorem ancestor_add (h : σ.ancestor e d = .ok a) : σ.ancestor e (d + n) = σ.ancestor a n := by
  induction d generalizing e with
  | zero =>
    cases h
    rw [Nat.zero_add]
  | succ d ih =>
    rw [Nat.succ_add, ancestor]
    rw [ancestor] at h
    split at h
    · exact ih h
    · cases h

theorem ancestor_parent (h : σ.ancestor e d = .ok a) (hp : σ.parent? a = some p) :
    σ.ancestor e (d + 1) = .ok p := by
  rw [ancestor_add h]
  simp only [ancestor, hp]

theorem getAt_of_binding? (h : σ.ancestor e d = .ok a) (hv : σ.binding? a name = some v) :
    σ.getAt e d name = .ok v := by
  simp only [getAt, h, valueIn, hv]

end Store

namespace World

variable {w : World} {bs : List Binding} {e : EnvId} {scopes : List Scope}
  {inner outer : List Opener} {f : FunDecl Occurrence} {m : Members}

/-- The innermost environment of a chain. -/
theorem Mirrors.exists_inside {opener : Opener} {openers : List Opener}
    (h : w.Mirrors e scopes (opener :: openers)) :
    ∃ o p outer, w.origin? e = some o ∧ o.For opener ∧ w.store.parent? e = some p ∧
      w.Mirrors p outer openers := by
  cases h with
  | inside ho hfor _ hparent outer => exact ⟨_, _, _, ho, hfor, hparent, outer⟩

/-- A chain that mirrors the scopes of a member: a call of the member lies in an environment for a
receiver, and this one in the environment for the superclass. -/
theorem Mirrors.exists_member
    (hm : w.Mirrors e scopes (inner ++ .function f :: .receiver m :: .superclass m :: outer)) :
    ∃ a p q fn arguments decl, w.store.ancestor e inner.length = .ok a ∧
      w.origin? a = some (.call fn arguments) ∧ fn.decl = f ∧ w.store.parent? a = some p ∧
      w.origin? p = some (.receiver decl) ∧ w.store.parent? p = some q ∧
      w.origin? q = some (.superclass m) := by
  have hle : inner.length ≤ scopes.length := by
    rw [hm.length_eq]
    simp
  obtain ⟨a, ha, hcall⟩ := hm.ancestor hle
  rw [List.drop_left] at hcall
  obtain ⟨o, p, _, ho, hfor, hparent, hreceiver⟩ := hcall.exists_inside
  obtain ⟨o', q, _, ho', hfor', hparent', hsuperclass⟩ := hreceiver.exists_inside
  obtain ⟨o'', _, _, ho'', hfor'', -⟩ := hsuperclass.exists_inside
  -- the opener of a scope tells what its environment was made for
  obtain ⟨fn, arguments, rfl⟩ : ∃ fn arguments, o = .call fn arguments := by
    cases o <;> first | exact ⟨_, _, rfl⟩ | cases hfor
  obtain ⟨decl, rfl⟩ : ∃ decl, o' = .receiver decl := by
    cases o' <;> first | exact ⟨_, rfl⟩ | cases hfor'
  obtain rfl : o'' = .superclass m := by
    cases o'' <;> first | exact congrArg _ hfor'' | cases hfor''
  exact ⟨a, p, q, fn, arguments, decl, ha, ho, hfor, hparent, ho', hparent', ho''⟩

/-- A chain that mirrors the scopes of a member comes from a call of the member for a receiver: the
call was one of a copy, so its environment is that of a binding, and the method of the binding was
declared where `super` stands for the superclass. -/
theorem Receivers.inMember (h : w.Receivers bs)
    (hm : w.Mirrors e scopes (inner ++ .function f :: .receiver m :: .superclass m :: outer)) :
    ∃ b ∈ bs, ∃ method static c s v, w.store.function? b.method = some method ∧
      method.decl = f ∧ f ∈ m.list static ∧
      w.store.InMember e (inner.length + 1) b static c s v := by
  obtain ⟨a, p, q, fn, arguments, decl, ha, ho, hfor, hparent, ho', hparent', ho''⟩ :=
    hm.exists_member
  obtain ⟨hclosure, htraced⟩ := h.calls ho
  obtain rfl : fn.closure = p := Option.some.inj (hclosure.symm.trans hparent)
  -- the function was called in an environment for a receiver, so it is a copy
  rcases htraced with ⟨b, hb, method, hmethod, rfl⟩ | ⟨o, hother, hkind⟩
  · obtain ⟨found, v, static, c, hfound, hparentb, -, hthis, hdeclares, hreceives⟩ := h.bound b hb
    obtain rfl : found = method := Option.some.inj (hfound.symm.trans hmethod)
    obtain rfl : found.closure = q := Option.some.inj (hparentb.symm.trans hparent')
    obtain ⟨cls, name, hcls, hfind⟩ := hdeclares
    obtain ⟨found', hfound', hbelongs⟩ := h.belongs hcls ⟨cls, name, hcls, hfind⟩
    obtain rfl : found = found' := Option.some.inj (hfound.symm.trans hfound')
    have hancestor := Store.ancestor_parent ha hparent
    cases hs : cls.superclass with
    | none =>
      rw [hs] at hbelongs
      obtain ⟨o, hother, hkind⟩ := hbelongs
      rw [ho''] at hother
      cases hother
      cases hkind
    | some s =>
      rw [hs] at hbelongs
      obtain ⟨hsuper, m', hm', hmem⟩ := hbelongs
      obtain rfl : m = m' := by simpa [ho''] using hm'
      exact ⟨b, hb, found, static, c, s, v, hfound, hfor, hfor ▸ hmem, hancestor,
        ⟨cls, name, hcls, hfind⟩, Option.bind_eq_some_iff.2 ⟨cls, hcls, hs⟩, hreceives,
        Store.getAt_of_binding? hancestor hthis,
        Store.getAt_of_binding? (Store.ancestor_parent hancestor hparent') hsuper⟩
  · rw [ho'] at hother
    cases hother
    cases hkind

end World

/-! ## Steps -/

namespace Progress

variable {p : Progress} {st : State} {K : Site → Prop} {O os os' : List Origin}
  {bs : List Binding}

/-- A step that makes the first environments of a list, after which the receivers fit. -/
def ReceiversWithin (p : Progress) (K : Site → Prop) (O os : List Origin) (bs : List Binding) :
    Prop :=
  ∃ n ≤ os.length, (p.state.world K (O ++ os.take n)).Receivers bs

theorem receivers_none (h : (p.state.world K O).Receivers bs) : p.ReceiversWithin K O os bs :=
  ⟨0, Nat.zero_le _, by simpa using h⟩

theorem receivers_all (h : (p.state.world K (O ++ os)).Receivers bs) :
    p.ReceiversWithin K O os bs :=
  ⟨os.length, Nat.le_refl _, by simpa using h⟩

/-- The store is not changed. -/
theorem receivers_same (h : (st.world K O).Receivers bs) (hstore : p.state.store = st.store) :
    p.ReceiversWithin K O os bs := by
  refine receivers_none ?_
  rw [State.world, hstore]
  exact h

/-- Environments that were made before. -/
theorem ReceiversWithin.append (h : p.ReceiversWithin K (O ++ os) os' bs) :
    p.ReceiversWithin K O (os ++ os') bs := by
  obtain ⟨n, hn, hp⟩ := h
  refine ⟨os.length + n, by simpa using hn, ?_⟩
  rw [List.take_append, List.take_of_length_le (Nat.le_add_right _ _)]
  simpa using hp

end Progress

/-- The bindings of methods that were found. -/
def Store.bindings (σ : Store) (found : Option FunId) : List Binding :=
  found.toList.map fun f => ⟨(σ.addEnvironment none).1, f⟩

/-- A step that finds no method and keeps the store. -/
theorem Progress.receivers_quiet {p : Progress} {st : State} {K : Site → Prop}
    {O os : List Origin} {bs : List Binding} (h : (st.world K O).Receivers bs)
    (hstore : p.state.store = st.store) :
    p.ReceiversWithin K O os (bs ++ st.store.bindings none) := by
  rw [Store.bindings, Option.toList_none, List.map_nil, List.append_nil]
  exact receivers_same h hstore

namespace State

variable {st : State} {setup : Setup} {K : Site → Prop} {O : List Origin} {bs : List Binding}
  {c : Context} {os : List Opener} {k : ValueCont} {fn : Function} {arguments : List Value}

/-! ## Properties -/

theorem receivers_deliverOr (h : (st.world K O).Receivers bs) (r : Except Abort Value)
    (o : List Origin) : (Progress.deliverOr st r k).ReceiversWithin K O o bs := by
  cases r <;> exact Progress.receivers_same h rfl

/-- A method that is found is bound to a receiver that belongs to the start of the search. -/
theorem receivers_methodFor (h : (st.world K O).Receivers bs) (q : Search) {v : Value}
    (hv : st.store.Receives q.static q.start v) (t : Token) :
    (Progress.deliverProperty st (st.store.methodFor (st.store.found? q) v t) k).ReceiversWithin K O
      (propertyOrigins (st.store.methodFor (st.store.found? q) v t))
      (bs ++ st.store.bindings (st.store.found? q)) := by
  cases hf : st.store.found? q with
  | none => exact Progress.receivers_quiet h rfl
  | some f =>
    obtain ⟨c, ⟨cls, name, hcls, hfind⟩, hreceives⟩ := hv.found? hf
    obtain ⟨fn, hfn, -⟩ := h.belongs hcls ⟨cls, name, hcls, hfind⟩
    have hmethod : st.store.methodFor (some f) v t = .ok (.method fn v) := by
      have hfn' : st.store.function? f = some fn := hfn
      simp only [Store.methodFor, Store.function, hfn', Except.map]
    rw [hmethod]
    exact Progress.receivers_all (h.realize hfn ⟨cls, name, hcls, hfind⟩ hreceives)

theorem receivers_property (h : (st.world K O).Receivers bs) (v : Value) (t : Token) :
    (Progress.deliverProperty st (st.store.property v t) k).ReceiversWithin K O
      (propertyOrigins (st.store.property v t))
      (bs ++ st.store.bindings ((st.store.propertySearch? v t.lexeme).bind st.store.found?)) := by
  cases v with
  | «instance» i =>
    cases hfield : st.store.field? i t.lexeme with
    | some u =>
      -- a field comes before the methods, and none is bound
      simp only [Store.propertySearch?, hfield, Option.bind_none]
      refine Progress.receivers_quiet h ?_
      simp only [Store.property, hfield]
      rfl
    | none =>
      cases hinst : st.store.instance? i with
      | none =>
        simp only [Store.propertySearch?, hfield, hinst, Option.map_none, Option.bind_none]
        refine Progress.receivers_quiet h ?_
        simp only [Store.property, hfield, Store.instanceMethod?, hinst, Option.bind_none]
        rfl
      | some inst =>
        have hproperty : st.store.property (.instance i) t =
            st.store.methodFor (st.store.found? ⟨false, inst.classId, t.lexeme⟩) (.instance i)
              t := by
          simp only [Store.property, hfield, Store.instanceMethod?, hinst, Option.bind_some]
          rfl
        rw [hproperty]
        simp only [Store.propertySearch?, hfield, hinst, Option.map_some, Option.bind_some]
        exact receivers_methodFor h ⟨false, inst.classId, t.lexeme⟩ (.instance hinst) t
  | «class» c => exact receivers_methodFor h ⟨true, c, t.lexeme⟩ (.class _ c) t
  | _ => exact Progress.receivers_quiet h rfl

/-- What a use of `super` searches: in the class above that of the member in which it stands, among
the methods of the kind of the member. -/
theorem superSearch (h : (st.world K O).Receivers bs) (hs : Surveyed setup.locals K)
    (henclosed : ∀ p, K p → p.Enclosed) {r : Ref Occurrence} {method : Token}
    (hsite : K ⟨c, os, .expression (.super r method)⟩)
    (hm : (st.world K O).Mirrors st.environment c.scopes os) :
    ∃ inner f m outer, os = inner ++ .function f :: .receiver m :: .superclass m :: outer ∧
      (∀ o ∈ inner, o.ofClass = false) ∧
      ∃ b ∈ bs, ∃ member static cls s v, st.store.function? b.method = some member ∧
        member.decl = f ∧ f ∈ m.list static ∧
        st.store.InMember st.environment (inner.length + 1) b static cls s v ∧
        st.superSearch? setup r method = some ⟨static, s, method.lexeme⟩ ∧
        st.readSuper setup r method =
          st.store.methodFor (st.store.found? ⟨static, s, method.lexeme⟩) v method := by
  obtain ⟨hnested, hencloses⟩ := henclosed _ hsite
  obtain ⟨inner, -, f, m, outer, rfl, -, hinner⟩ :=
    hnested.exists_member (hencloses.kind.symm.trans (hs.enclosingClass_super hsite))
  have hword : r.token.lexeme = Keyword.superWord.text := (hs.settled hsite).genuine
  have hd : setup.locals.distance? r.mark = some (inner.length + 2) := by
    rw [hs.distance? hsite r rfl, hword]
    exact hencloses.distance?_super hinner
  -- the environments around the use are those of a call of the member and of its receiver
  obtain ⟨b, hb, member, static, cls, s, v, hmember, hdecl, hkind, hin⟩ := h.inMember hm
  refine ⟨inner, f, m, outer, rfl, hinner, b, hb, member, static, cls, s, v, hmember, hdecl, hkind,
    hin, ?_⟩
  have hsuper : st.store.getAt st.environment (inner.length + 2) "super" = .ok (.class s) :=
    hin.super
  have hthis : st.store.getAt st.environment (inner.length + 2 - 1) "this" = .ok v := hin.this
  have hreceives := hin.receives
  simp only [superSearch?, readSuper, hd, Store.superMethod, hsuper, hthis]
  cases static <;> cases v <;> first | exact ⟨rfl, rfl⟩ | cases hreceives

/-! ## Calls -/

/-- A call begins, unless too many calls are nested. -/
theorem receivers_enter (h : (st.world K O).Receivers bs) (hfn : fn.Traced (st.world K O) bs)
    (hparams : ∀ p ∈ fn.decl.params, p.IsName) (result : CallResult) :
    (st.enter setup fn arguments result k).ReceiversWithin K O [.call fn arguments] bs := by
  unfold enter
  split
  · exact Progress.receivers_same h rfl
  · exact Progress.receivers_all (h.enterFunction hfn hparams arguments)

/-- A new instance is the receiver of its initializer. -/
theorem receivers_construct (h : (st.world K O).Receivers bs) {f : FunId} {cls : ClassId}
    (hfound : st.store.found? ⟨false, cls, "init"⟩ = some f) (hfn : st.store.function? f = some fn)
    (hparams : ∀ p ∈ fn.decl.params, p.IsName) :
    (((st.addInstance cls).2.copyFor fn (.instance (st.addInstance cls).1)).2.enter setup
      ((st.addInstance cls).2.copyFor fn (.instance (st.addInstance cls).1)).1 arguments
      (.constructed (st.addInstance cls).1) k).ReceiversWithin K O
      [.receiver fn.decl, .call (st.copyFor fn .nil).1 arguments]
      (bs ++ st.store.bindings (some f)) := by
  have hadd := h.addInstance cls
  have hinstance : (st.addInstance cls).2.store.instance? (st.addInstance cls).1 =
      some { classId := cls } := Store.instance?_addInstance_self _ _
  obtain ⟨c, hinherits, hdeclares⟩ := Store.declares_of_found? hfound
  have hretains := Store.retains_addInstance (σ := st.store) cls
  have hreceives := (Store.Receives.instance hinstance).inherits (hretains.inherits hinherits)
  obtain ⟨hcopy, hcopies⟩ := hadd.copyFor hfn (hretains.declares hdeclares) hreceives
  have hbound : (((st.addInstance cls).2.copyFor fn (.instance (st.addInstance cls).1)).2.world K
      (O ++ [.receiver fn.decl])).Receivers (bs ++ st.store.bindings (some f)) := hcopy
  exact Progress.ReceiversWithin.append (receivers_enter hbound
    (.inl ⟨_, List.mem_append_right _ (.head _), hcopies⟩) hparams
    (.constructed (st.addInstance cls).1))

theorem params_of_fits (hs : Surveyed setup.locals K) (hfn : fn.Fits (st.world K O)) :
    ∀ p ∈ fn.decl.params, p.IsName := by
  obtain ⟨kind, c, openers, hsite, -⟩ := hfn.site
  exact Stmt.GenuineFunction.params (hs.settled hsite).genuine

theorem params_of_fitsMethod (hs : Surveyed setup.locals K)
    (hfn : fn.FitsMethod (st.world K O)) : ∀ p ∈ fn.decl.params, p.IsName := by
  obtain ⟨kind, c, scopes, m, openers, hsite, -⟩ := hfn
  exact Stmt.GenuineFunction.params (hs.settled hsite).genuine

/-- A call that is refused binds nothing. -/
theorem callSearch?_of_refused {callee : Value} {n : Nat}
    (h : st.store.arity? callee ≠ some n) : st.callSearch? callee n = none := by
  cases callee with
  | «class» cls => exact if_neg fun hn => h (congrArg some hn.symm)
  | _ => rfl

/-- A call of any value, which binds the initializer of a class, if it has one and the call is not
refused. -/
theorem receivers_call (h : (st.world K O).Receivers bs) (hw : (st.world K O).Sound)
    (hs : Surveyed setup.locals K) {callee : Value} (hcallee : callee.Fits (st.world K O))
    (paren : Token) :
    (st.call setup callee arguments paren k).ReceiversWithin K O (st.callOrigins callee arguments)
      (bs ++ st.store.bindings
        ((st.callSearch? callee arguments.length).bind st.store.found?)) := by
  have hnone : bs ++ st.store.bindings none = bs := List.append_nil bs
  have hform := st.callForm_call setup callee arguments paren
  generalize st.call setup callee arguments paren = call at hform ⊢
  cases hform with
  | refused harity =>
    rw [callSearch?_of_refused harity]
    exact Progress.receivers_quiet h rfl
  | noFunction | clock => exact Progress.receivers_quiet h rfl
  | noInitializer hinit =>
    obtain ⟨init, hinit', -⟩ := regular_initializer hw _
    cases hinit'.symm.trans hinit
  | @bare cls hinit hlength =>
    have hsearch : st.callSearch? (.class cls) arguments.length = some ⟨false, cls, "init"⟩ :=
      if_pos (hlength.trans (classArity_of_initializer hinit).symm)
    have hfound : st.store.found? ⟨false, cls, "init"⟩ = none := findMethod?_of_initializer hinit
    rw [hsearch, Option.bind_some, hfound, hnone]
    exact Progress.receivers_none (h.addInstance cls)
  | @function f fn hfn hlength =>
    obtain ⟨fn', hfn', hfits⟩ := hcallee f rfl
    obtain rfl : fn' = fn := Option.some.inj (hfn'.symm.trans hfn)
    have hsearch : st.callSearch? (.function f) arguments.length = none := rfl
    rw [callOrigins_function hfn, hsearch, Option.bind_none, hnone]
    exact receivers_enter h (h.functions hfn) (params_of_fits hs hfits) _
  | @initializer cls fn hinit hlength =>
    have hsearch : st.callSearch? (.class cls) arguments.length = some ⟨false, cls, "init"⟩ :=
      if_pos (hlength.trans (classArity_of_initializer hinit).symm)
    obtain ⟨f, hfound, hfn⟩ := exists_of_initializer hinit
    have hfound : st.store.found? ⟨false, cls, "init"⟩ = some f := hfound
    obtain ⟨init, hinit', hfits⟩ := regular_initializer hw cls
    obtain rfl : init = some fn := Except.ok.inj (hinit'.symm.trans hinit)
    rw [callOrigins_class hinit, hsearch, Option.bind_some, hfound]
    exact receivers_construct h hfound hfn (params_of_fitsMethod hs (hfits fn rfl))

/-! ## Declarations -/

theorem receivers_beginVar (h : (st.world K O).Receivers bs)
    (hhas : st.store.Has st.environment) {name : Token} (hname : name.IsName) :
    ((st.beginVar name.lexeme).world K O).Receivers bs ∧
      (st.beginVar name.lexeme).store.Has (st.beginVar name.lexeme).environment := by
  unfold beginVar
  split
  · exact ⟨h.define hhas hname.ne_text .nil, Store.has_define.2 hhas⟩
  · exact ⟨h, hhas⟩

theorem receivers_finishClass (h : (st.world K O).Receivers bs) (hw : (st.world K O).Sound)
    (hs : Surveyed setup.locals K) (henclosed : ∀ p, K p → p.Enclosed) {name : Token}
    {r : Option (Ref Occurrence)} {s : Option ClassId}
    {statics methods : List (FunDecl Occurrence)} {k : StmtCont}
    (hsite : K ⟨c, os, .statement (.class name r statics methods)⟩)
    (hm : (st.world K O).Mirrors st.environment c.scopes os) :
    (st.finishClass name s statics methods k).ReceiversWithin K O
      (World.superOrigins ⟨name, statics, methods⟩ s) bs := by
  have hplain := hm.plain hw (Nested.ofClass_head (henclosed _ hsite).nested)
  exact Progress.receivers_all
    (h.declareClass (hm.has hw) hplain (hs.settled hsite).genuine.1 s statics methods)

theorem receivers_execute (h : (st.world K O).Receivers bs) (hw : (st.world K O).Sound)
    (hs : Surveyed setup.locals K) (henclosed : ∀ p, K p → p.Enclosed) {s : Code} {k : StmtCont}
    (hsite : K ⟨c, os, .statement s⟩)
    (hm : (st.world K O).Mirrors st.environment c.scopes os) :
    (st.execute k s).ReceiversWithin K O (Config.mayOpen setup ⟨.execute s k, st⟩) bs := by
  have hhas := hm.has hw
  have hgenuine := (hs.settled hsite).genuine
  cases s with
  | var name initializer =>
    obtain ⟨hbegin, hhas⟩ := receivers_beginVar h hhas hgenuine.1
    cases initializer with
    | none => exact Progress.receivers_none (hbegin.define hhas hgenuine.1.ne_text .nil)
    | some value => exact Progress.receivers_none hbegin
  | block body => exact Progress.receivers_all (h.opened st.environment (by simp))
  | function decl =>
    obtain ⟨o, ho, hreceiver, -⟩ := hm.plain hw (Nested.ofClass_head (henclosed _ hsite).nested)
    have hadd := h.addFunction (g := ⟨decl, st.environment, false⟩) (.inr ⟨o, ho, hreceiver⟩)
    exact Progress.receivers_none
      (hadd.define hhas (Stmt.GenuineFunction.name hgenuine).ne_text _)
  | «class» name superclass statics methods =>
    cases superclass with
    | none =>
      have hclass := receivers_finishClass (s := none) (k := k) h hw hs henclosed hsite hm
      exact hclass
    | some r => exact Progress.receivers_same h rfl
  | «return» keyword value => cases value <;> exact Progress.receivers_same h rfl
  | _ => exact Progress.receivers_same h rfl

/-! ## Values -/

theorem receivers_argumentsFrom (h : (st.world K O).Receivers bs) (hw : (st.world K O).Sound)
    (hs : Surveyed setup.locals K) {callee : Value} (hcallee : callee.Fits (st.world K O))
    (paren : Token) (arguments : List Value) (rest : List ExprCode) :
    (st.argumentsFrom setup paren callee arguments rest k).ReceiversWithin K O
      (if rest.isEmpty then st.callOrigins callee arguments else [])
      (bs ++ if rest.isEmpty then st.store.bindings
        ((st.callSearch? callee arguments.length).bind st.store.found?) else []) := by
  cases rest with
  | nil => exact receivers_call h hw hs hcallee paren
  | cons e rest =>
    refine Progress.receivers_same ?_ rfl
    rwa [List.isEmpty_cons, if_neg Bool.false_ne_true, List.append_nil]

theorem receivers_deliver (h : (st.world K O).Receivers bs) (hw : (st.world K O).Sound)
    (hs : Surveyed setup.locals K) (henclosed : ∀ p, K p → p.Enclosed) {v : Value}
    (hv : v.Fits (st.world K O)) (hm : (st.world K O).Mirrors st.environment c.scopes os)
    (hk : k.Fits (st.world K O) c os) :
    (st.deliver setup v k).ReceiversWithin K O (Config.mayOpen setup ⟨.deliver v k, st⟩)
      (bs ++ Config.binds setup ⟨.deliver v k, st⟩) := by
  -- only properties and calls bind methods
  have hquiet : ∀ {p : Progress} {os : List Origin}, (p.state.world K O).Receivers bs →
      p.ReceiversWithin K O os (bs ++ []) := by
    intro p os hp
    rw [List.append_nil]
    exact Progress.receivers_none hp
  cases k with
  | assign name k =>
    obtain ⟨⟨value, hsite⟩, -⟩ := hk
    have hname : name.token.IsName := (hs.settled hsite).genuine.1
    refine hquiet ?_
    simp only [deliver]
    rcases regular_variableOwner hw hs hsite hm with ⟨a, ha, hhas, -⟩ | ⟨e, he⟩
    · simp only [ha]
      exact h.define hhas hname.ne_text v
    · simp only [he]
      exact h
  | callee paren arguments k =>
    have hcall := receivers_argumentsFrom (k := k) h hw hs hv paren [] arguments
    cases arguments <;> exact hcall
  | argument paren callee done rest k =>
    have hcall := receivers_argumentsFrom (k := k) h hw hs hk.1 paren (done ++ [v]) rest
    rw [List.length_append] at hcall
    cases rest <;> exact hcall
  | field name k => exact receivers_property h v name
  | fieldValue target name k => exact hquiet (h.setField target name.lexeme v)
  | var name k =>
    obtain ⟨outer, initializer, rfl, hsite, -⟩ := hk
    exact hquiet (h.define (hm.has hw) (hs.settled hsite).genuine.1.ne_text v)
  | inherit superclass name statics methods k =>
    obtain ⟨⟨r, -, hsite⟩, -⟩ := hk
    have hclass : ∀ d, (st.finishClass name (some d) statics methods k).ReceiversWithin K O
        [.superclass ⟨name, statics, methods⟩] bs :=
      fun d => receivers_finishClass h hw hs henclosed hsite hm
    cases v with
    | «class» d =>
      have hd := hclass d
      rw [← List.append_nil bs] at hd
      exact hd
    | _ => exact hquiet h
  | logicalRight | ifThen | «while» | fieldTarget | expression =>
    refine hquiet ?_
    simp only [deliver]
    split <;> exact h
  | binaryDone op token left k =>
    refine hquiet ?_
    simp only [deliver]
    cases op.apply token left v <;> exact h
  | unary op token k =>
    refine hquiet ?_
    simp only [deliver]
    cases op.apply token v <;> exact h
  | _ => exact hquiet h

theorem receivers_complete (h : (st.world K O).Receivers bs) (completion : Completion)
    (k : StmtCont) (o : List Origin) : (st.complete completion k).ReceiversWithin K O o bs := by
  cases k with
  | program rest => cases rest <;> exact Progress.receivers_same h rfl
  | seq rest k => cases completion <;> cases rest <;> exact Progress.receivers_same h rfl
  | leave => exact Progress.receivers_same h rfl
  | loop => cases completion <;> exact Progress.receivers_same h rfl
  | activation caller result k =>
    simp only [complete]
    cases st.callValue result completion <;> exact Progress.receivers_same h rfl

end State

namespace Config

variable {setup : Setup} {K : Site → Prop} {O : List Origin} {bs : List Binding} {c d : Config}
  {n : Nat}

/-- One step binds methods to receivers that fit. -/
theorem receivers_within (h : (c.state.world K O).Receivers bs) (hc : c.Fits K O)
    (hs : Surveyed setup.locals K) (henclosed : ∀ p, K p → p.Enclosed) :
    (c.step setup).ReceiversWithin K O (c.mayOpen setup) (bs ++ c.binds setup) := by
  have hbs : bs ++ [] = bs := List.append_nil bs
  obtain ⟨control, st⟩ := c
  obtain ⟨hw, hcontrol⟩ := hc
  cases hcontrol with
  | @evaluate c os e k hsite hm hk =>
    cases e with
    | super r method =>
      obtain ⟨inner, f, m, outer, rfl, -, b, -, member, static, cls, s, v, -, -, -, hin, hsearch,
        hread⟩ := State.superSearch h hs henclosed hsite hm
      have hbound := State.receivers_methodFor (k := k) h ⟨static, s, method.lexeme⟩
        (hin.receives.inherits (.superclass hin.superclass)) method
      have hbinds : binds setup ⟨.evaluate (.super r method) k, st⟩ =
          st.store.bindings (st.store.found? ⟨static, s, method.lexeme⟩) := by
        simp only [binds, search?, hsearch]
        rfl
      rw [hbinds]
      rw [← hread] at hbound
      exact hbound
    | «variable» | this => exact State.receivers_deliverOr (hbs.symm ▸ h) _ _
    | _ => exact Progress.receivers_same (hbs.symm ▸ h) rfl
  | superclass => exact State.receivers_deliverOr (hbs.symm ▸ h) _ _
  | execute hsite hm => exact State.receivers_execute (hbs.symm ▸ h) hw hs henclosed hsite hm
  | deliver hm hv hk => exact State.receivers_deliver h hw hs henclosed hv hm hk
  | complete => exact State.receivers_complete (hbs.symm ▸ h) _ _ _

/-- What one step binds fits, with what the step makes environments for. -/
theorem receivers_step (h : (c.state.world K O).Receivers bs) (hc : c.Fits K O)
    (hs : Surveyed setup.locals K) (henclosed : ∀ p, K p → p.Enclosed) :
    ((c.step setup).state.world K (O ++ c.opened setup)).Receivers (bs ++ c.binds setup) := by
  obtain ⟨n, hn, hreceivers⟩ := receivers_within h hc hs henclosed
  have hbefore : O.length = c.state.store.environments.size := h.length
  have hafter : (O ++ (c.mayOpen setup).take n).length =
      (c.step setup).state.store.environments.size := hreceivers.length
  rw [List.length_append, List.length_take, Nat.min_eq_left hn] at hafter
  rwa [opened, ← hafter, ← hbefore, Nat.add_sub_cancel_left]

/-- What is bound up to a moment of a run. -/
theorem receivers_after (h : (c.state.world K O).Receivers bs) (hc : c.Fits K O)
    (hs : Surveyed setup.locals K) (henclosed : ∀ p, K p → p.Enclosed)
    (hd : c.after? setup n = some d) :
    (d.state.world K (O ++ c.openedWithin setup n)).Receivers (bs ++ c.bindsWithin setup n) := by
  induction n generalizing c O bs with
  | zero =>
    cases hd
    simpa [openedWithin, bindsWithin] using h
  | succ n ih =>
    obtain ⟨c', event, hstep, hd⟩ := exists_next_of_after? hd
    have hfits := fits_opened hc hs
    have hnext := receivers_step h hc hs henclosed
    rw [hstep] at hfits hnext
    have hrest := ih hnext hfits hd
    simpa only [openedWithin, bindsWithin, hstep, List.append_assoc] using hrest

/-- What is bound up to the end of a run. -/
theorem receivers_run (h : (c.state.world K O).Receivers bs) (hc : c.Fits K O)
    (hs : Surveyed setup.locals K) (henclosed : ∀ p, K p → p.Enclosed) (n : Nat)
    (recent : Transcript) :
    ((runFrom setup n c recent).state.world K (O ++ c.openedWithin setup n)).Receivers
      (bs ++ c.bindsWithin setup n) := by
  induction n generalizing c O bs recent with
  | zero => simpa [runFrom, openedWithin, bindsWithin] using h
  | succ n ih =>
    have hfits := fits_opened hc hs
    have hnext := receivers_step h hc hs henclosed
    cases hstep : c.step setup with
    | next d event =>
      rw [hstep] at hfits hnext
      have hrest := ih hnext hfits (record recent event)
      rw [List.append_assoc, List.append_assoc] at hrest
      simpa only [openedWithin, bindsWithin, hstep, runFrom_next hstep] using hrest
    | halt halt st =>
      rw [hstep] at hnext
      simp only [openedWithin, bindsWithin, hstep, runFrom_halt hstep, List.append_nil]
      exact hnext

end Config

end Lox
