import Lox.Proofs.Machine.Calls

/-!
# Steps in sound worlds

A step from a configuration that fits leads to one that fits, or to a legal end. The environments
that it makes are made for what the step does, so the world knows the origin of each of them.

## Main definitions

* `Config.mayOpen`: what a step may make environments for, in order

## Main results

* `Config.fits_step`: a step in a sound world
-/

namespace Lox

/-- What the value of a property may make an environment for. -/
def propertyOrigins : Except Abort Store.Property → List Origin
  | .ok p => p.origins
  | .error _ => []

/-- What a step may make environments for, in order. -/
def Config.mayOpen (setup : Setup) (c : Config) : List Origin :=
  match c with
  | ⟨.execute (.block body) _, _⟩ => [.block body]
  | ⟨.evaluate (.super keyword method) _, st⟩ => propertyOrigins (st.readSuper setup keyword method)
  | ⟨.deliver v (.field name _), st⟩ => propertyOrigins (st.store.property v name)
  | ⟨.deliver v (.callee _ [] _), st⟩ => st.callOrigins v []
  | ⟨.deliver v (.argument _ callee done [] _), st⟩ => st.callOrigins callee (done ++ [v])
  | ⟨.deliver (.class _) (.inherit _ name statics methods _), _⟩ =>
    [.superclass ⟨name, statics, methods⟩]
  | _ => []

namespace Progress

variable {st : State} {K : Site → Prop} {O : List Origin} {c : Context} {os : List Opener}
  {k : ValueCont}

theorem fits_deliverOr {r : Except Abort Value} (h : (st.world K O).Sound)
    (hm : (st.world K O).Mirrors st.environment c.scopes os) (hk : k.Fits (st.world K O) c os)
    (hr : Regular (·.Fits (st.world K O)) r) : (deliverOr st r k).Fits K O := by
  rcases hr with ⟨v, rfl, hv⟩ | ⟨e, rfl⟩
  · exact ⟨h, .deliver hm hv hk⟩
  · exact fits_error h e

theorem fits_deliverMade {r : Except Abort Value} (h : (st.world K O).Sound)
    (hm : (st.world K O).Mirrors st.environment c.scopes os) (hk : k.Fits (st.world K O) c os)
    (hr : Regular (·.Fits (st.world K O)) r) : (deliverMade st r k).Fits K O :=
  show (deliverOr st.operate _ k).Fits K O from fits_deliverOr h hm hk (hr.made _)

theorem fits_deliverProperty {r : Except Abort Store.Property} (h : (st.world K O).Sound)
    (hm : (st.world K O).Mirrors st.environment c.scopes os) (hk : k.Fits (st.world K O) c os)
    (hr : Regular (·.Fits (st.world K O)) r) :
    (deliverProperty st r k).FitsWithin K O (propertyOrigins r) := by
  rcases hr with ⟨p, rfl, hp⟩ | ⟨e, rfl⟩
  · obtain ⟨hgrows, hv⟩ := h.realize hp
    exact Fits.all ⟨hgrows.sound, .deliver (hm.extend hgrows.extend) hv (hk.extend hgrows.extend)⟩
  · exact (fits_error h e).none

end Progress

namespace State

variable {st : State} {setup : Setup} {K : Site → Prop} {O : List Origin} {c : Context}
  {os : List Opener}

/-! ## Expressions -/

/-- The first part of an expression is evaluated; the parts that wait stand in the same context. -/
theorem fits_evaluate {e : ExprCode} {k : ValueCont} (h : (st.world K O).Sound)
    (hs : Surveyed setup.locals K) (hsite : K ⟨c, os, .expression e⟩)
    (hm : (st.world K O).Mirrors st.environment c.scopes os) (hk : k.Fits (st.world K O) c os) :
    (st.evaluate setup k e).FitsWithin K O (Config.mayOpen setup ⟨.evaluate e k, st⟩) := by
  -- the parts are sites, as those below a site are
  have hchild : ∀ a ∈ e.operands, K ⟨c, os, .expression a⟩ := fun _ ha =>
    hs.below hsite (.operand ha)
  cases e with
  | literal value =>
    refine Progress.Fits.none ⟨h, .deliver hm (World.fits_of_not_function fun f hf => ?_) hk⟩
    cases value <;> cases hf
  | «variable» r =>
    exact (Progress.fits_deliverOr h hm hk
      (regular_readVariable h hm fun d hd => hs.find?_variable hsite hd)).none
  | this r =>
    exact (Progress.fits_deliverOr h hm hk
      (regular_readVariable h hm fun d hd => hs.find?_this hsite hd)).none
  | super r method =>
    exact Progress.fits_deliverProperty h hm hk (regular_readSuper h hs hsite hm)
  | assign r value =>
    exact Progress.Fits.none ⟨h, .evaluate (hchild value (.head _)) hm ⟨⟨value, hsite⟩, hk⟩⟩
  | binary left op token right | logical left op token right =>
    exact Progress.Fits.none ⟨h, .evaluate (hchild left (.head _)) hm
      ⟨hchild right (.tail _ (.head _)), hk⟩⟩
  | unary op token operand =>
    exact Progress.Fits.none ⟨h, .evaluate (hchild operand (.head _)) hm hk⟩
  | ternary question condition whenTrue whenFalse =>
    exact Progress.Fits.none ⟨h, .evaluate (hchild condition (.head _)) hm
      ⟨hchild whenTrue (.tail _ (.head _)), hchild whenFalse (.tail _ (.tail _ (.head _))), hk⟩⟩
  | group inner => exact Progress.Fits.none ⟨h, .evaluate (hchild inner (.head _)) hm hk⟩
  | call callee paren arguments =>
    exact Progress.Fits.none ⟨h, .evaluate (hchild callee (.head _)) hm
      ⟨fun a ha => hchild a (.tail _ ha), hk⟩⟩
  | field object name => exact Progress.Fits.none ⟨h, .evaluate (hchild object (.head _)) hm hk⟩
  | setField object name value =>
    exact Progress.Fits.none ⟨h, .evaluate (hchild object (.head _)) hm
      ⟨hchild value (.tail _ (.head _)), hk⟩⟩

/-! ## Statements -/

/-- A variable is declared where it stands. -/
@[simp] theorem environment_beginVar (st : State) (name : String) :
    (st.beginVar name).environment = st.environment := by
  unfold beginVar
  split <;> rfl

/-- The environment in which the initializer of a variable is evaluated. -/
theorem world_beginVar (h : (st.world K O).Sound) {name : Token} (hname : name.IsName)
    (hallowed : ∀ o ∈ os.head?, name.lexeme ∈ o.names)
    (hm : (st.world K O).Mirrors st.environment c.scopes os) :
    (st.world K O).Grows ((st.beginVar name.lexeme).world K O) ∧
      (st.beginVar name.lexeme).environment = st.environment := by
  refine ⟨?_, st.environment_beginVar name.lexeme⟩
  unfold beginVar
  split
  · exact (h.defineName hm hname hallowed (World.fits_of_not_function (by simp))).1
  · exact h.grows

theorem fits_finishClass {name : Token} {r : Option (Ref Occurrence)} {s : Option ClassId}
    {statics methods : List (FunDecl Occurrence)} {k : StmtCont} (h : (st.world K O).Sound)
    (hs : Surveyed setup.locals K)
    (hsite : K ⟨c, os, .statement (.class name r statics methods)⟩)
    (hm : (st.world K O).Mirrors st.environment c.scopes os) (hrs : s.isSome = r.isSome)
    (hk : k.Fits (st.world K O) (c.declared (some name)) os) :
    (st.finishClass name s statics methods k).Fits K
      (O ++ World.superOrigins ⟨name, statics, methods⟩ s) := by
  obtain ⟨hgrows, hm'⟩ := h.declareClass hs hsite hm hrs
  exact ⟨hgrows.sound, .complete hm' (by simp) (hk.extend hgrows.extend)⟩

/-- A statement is begun. What follows it fits the context in which its name, if it declares one,
has ended. -/
theorem fits_execute {s : Code} {k : StmtCont} (h : (st.world K O).Sound)
    (hs : Surveyed setup.locals K) (hsite : K ⟨c, os, .statement s⟩)
    (hm : (st.world K O).Mirrors st.environment c.scopes os)
    (hk : k.Fits (st.world K O) (c.declared s.declared?) os) :
    (st.execute k s).FitsWithin K O (Config.mayOpen setup ⟨.execute s k, st⟩) := by
  have hchild : ∀ e ∈ s.operands, K ⟨c, os, .expression e⟩ := fun _ he =>
    hs.below hsite (.value he)
  have hsettled := hs.settled hsite
  cases s with
  | expression value | print value =>
    exact Progress.Fits.none ⟨h, .evaluate (hchild value (.head _)) hm hk⟩
  | var name initializer =>
    have hname : name.IsName := hsettled.genuine.1
    have hallowed := hsettled.mem_names name rfl
    obtain ⟨hbegin, henv⟩ := world_beginVar h hname hallowed hm
    have hm' : ((st.beginVar name.lexeme).world K O).Mirrors (st.beginVar name.lexeme).environment
        c.scopes os := henv ▸ hm.extend hbegin.extend
    cases initializer with
    | none =>
      obtain ⟨hdefine, hm''⟩ := hbegin.sound.defineName hm' hname hallowed (v := .nil)
        (World.fits_of_not_function (by simp))
      exact Progress.Fits.none ⟨hdefine.sound, .complete hm'' (by simp)
        (hk.extend (hbegin.trans hdefine).extend)⟩
    | some value =>
      -- the name is declared for the initializer, but has not ended
      exact Progress.Fits.none ⟨hbegin.sound, .evaluate (hs.below hsite (.initializer ..))
        (hm'.declare name) ⟨c, some value, rfl, hsite, hk.extend hbegin.extend⟩⟩
  | block body =>
    obtain ⟨hgrows, hm'⟩ := h.enterBlock hm body
    exact Progress.Fits.all ⟨hgrows.sound, .complete hm' (by simp)
      ⟨hs.below hsite (.block c os body), rfl, c, os, hm.extend hgrows.extend,
        hk.extend hgrows.extend⟩⟩
  | ifThen condition | ifElse condition =>
    exact Progress.Fits.none ⟨h, .evaluate (hchild condition (.head _)) hm
      ⟨⟨condition, hsite⟩, hk⟩⟩
  | «while» condition body =>
    exact Progress.Fits.none ⟨h, .evaluate (hchild condition (.head _)) hm ⟨hsite, hk⟩⟩
  | function decl =>
    obtain ⟨hgrows, hm'⟩ := h.declareFunction hs hsite hm rfl
    exact Progress.Fits.none ⟨hgrows.sound, .complete hm' (by simp) (hk.extend hgrows.extend)⟩
  | «return» keyword value =>
    cases value with
    | none =>
      refine Progress.Fits.none ⟨h, .complete hm (fun v hv => ?_) hk⟩
      cases hv
      exact World.fits_of_not_function (by simp)
    | some value =>
      exact Progress.Fits.none ⟨h, .evaluate (hchild value (.head _)) hm hk⟩
  | «class» name superclass statics methods =>
    cases superclass with
    | none =>
      have hfits := fits_finishClass (s := none) h hs hsite hm rfl hk
      rw [World.superOrigins, List.append_nil] at hfits
      exact hfits.none
    | some r => exact Progress.Fits.none ⟨h, .superclass hsite hm hk⟩

/-! ## Values -/

theorem regular_applyUnary (op : UnaryOp) (t : Token) (v : Value) (w : World) :
    Regular (·.Fits w) (op.apply t v) := by
  cases op with
  | not => exact .inl ⟨_, rfl, World.fits_of_not_function (by simp)⟩
  | negate =>
    cases v with
    | number => exact .inl ⟨_, rfl, World.fits_of_not_function (by simp)⟩
    | _ => exact .inr ⟨_, rfl⟩

theorem regular_applyBinary (op : BinaryOp) (t : Token) (l r : Value) (w : World) :
    Regular (·.Fits w) (op.apply t l r) := by
  have hnumbers : ∀ a b, Regular (·.Fits w) (op.applyNumbers t a b) := by
    intro a b
    cases op with
    | divide =>
      simp only [BinaryOp.applyNumbers]
      split
      · exact .inr ⟨_, rfl⟩
      · exact .inl ⟨_, rfl, World.fits_of_not_function (by simp)⟩
    | _ => exact .inl ⟨_, rfl, World.fits_of_not_function (by simp)⟩
  unfold BinaryOp.apply
  split
  · exact .inl ⟨_, rfl, World.fits_of_not_function (by simp)⟩
  · exact .inl ⟨_, rfl, World.fits_of_not_function (by simp)⟩
  · exact hnumbers _ _
  · exact .inl ⟨_, rfl, World.fits_of_not_function (by simp)⟩
  · exact .inr ⟨_, rfl⟩
  · exact .inr ⟨_, rfl⟩

/-- The next argument is evaluated, or there is none and the callee is called. -/
theorem fits_argumentsFrom {callee : Value} {done : List Value} {rest : List ExprCode}
    {k : ValueCont} (paren : Token) (h : (st.world K O).Sound)
    (hs : Surveyed setup.locals K) (hm : (st.world K O).Mirrors st.environment c.scopes os)
    (hcallee : callee.Fits (st.world K O)) (hdone : ∀ v ∈ done, v.Fits (st.world K O))
    (hrest : ∀ a ∈ rest, K ⟨c, os, .expression a⟩) (hk : k.Fits (st.world K O) c os) :
    (st.argumentsFrom setup paren callee done rest k).FitsWithin K O
      (if rest.isEmpty then st.callOrigins callee done else []) := by
  cases rest with
  | nil => exact fits_call h hs hm hk hcallee hdone paren
  | cons e rest =>
    exact Progress.Fits.none ⟨h, .evaluate (hrest e (by simp)) hm
      ⟨hcallee, hdone, fun a ha => hrest a (by simp [ha]), hk⟩⟩

/-- A value is assigned to the variable that the reference stands for, if there is one. -/
theorem fits_deliver_assign {r : Ref Occurrence} {v : Value} {k : ValueCont}
    (h : (st.world K O).Sound) (hs : Surveyed setup.locals K)
    (hm : (st.world K O).Mirrors st.environment c.scopes os) (hv : v.Fits (st.world K O))
    (hk : (ValueCont.assign r k).Fits (st.world K O) c os) :
    (st.deliver setup v (.assign r k)).Fits K O := by
  obtain ⟨⟨value, hsite⟩, hk⟩ := hk
  have hname : r.token.IsName := (hs.settled hsite).genuine.1
  simp only [deliver]
  rcases regular_variableOwner h hs hsite hm with ⟨a, ha, hhas, hallows⟩ | ⟨e, he⟩
  · have hgrows := h.grows_define _ hhas hallows hv fun hsuper => absurd hsuper (hname.ne_text _)
    simp only [ha]
    exact ⟨hgrows.sound, .deliver (hm.extend hgrows.extend) (hv.extend hgrows.extend)
      (hk.extend hgrows.extend)⟩
  · simp only [he]
    exact Progress.fits_error h e

/-- The initializer of a variable has a value: the name ends, and the environment holds it. -/
theorem fits_deliver_var {name : Token} {v : Value} {k : StmtCont} (h : (st.world K O).Sound)
    (hs : Surveyed setup.locals K) (hm : (st.world K O).Mirrors st.environment c.scopes os)
    (hv : v.Fits (st.world K O)) (hk : (ValueCont.var name k).Fits (st.world K O) c os) :
    (st.deliver setup v (.var name k)).Fits K O := by
  obtain ⟨outer, initializer, rfl, hsite, hk⟩ := hk
  have hsettled := hs.settled hsite
  have hname : name.IsName := hsettled.genuine.1
  have hgrows := h.grows_define _ (hm.has h) (fun o => hm.allows h (hsettled.mem_names name rfl)) hv
    fun hsuper => absurd hsuper (hname.ne_text _)
  exact ⟨hgrows.sound, .complete
    ((hm.extend hgrows.extend).define (Store.holds_define_self (hm.has h))) (by simp)
    (hk.extend hgrows.extend)⟩

/-- A branch or a body is executed. It declares nothing, so what follows it fits the context of the
whole. -/
theorem fits_branch {s : Code} {k : StmtCont} (h : (st.world K O).Sound)
    (hsite : K ⟨c, os, .statement s⟩) (hm : (st.world K O).Mirrors st.environment c.scopes os)
    (hnone : s.declared? = none) (hk : k.Fits (st.world K O) c os) :
    Config.Fits ⟨.execute s k, st⟩ K O :=
  ⟨h, .execute hsite hm (hnone ▸ hk)⟩

/-- A value is given to what waits for it. -/
theorem fits_deliver {v : Value} {k : ValueCont} (h : (st.world K O).Sound)
    (hs : Surveyed setup.locals K) (hm : (st.world K O).Mirrors st.environment c.scopes os)
    (hv : v.Fits (st.world K O)) (hk : k.Fits (st.world K O) c os) :
    (st.deliver setup v k).FitsWithin K O (Config.mayOpen setup ⟨.deliver v k, st⟩) := by
  cases k with
  | answer => exact Progress.Fits.none ⟨by simp [Halt.Legal], h⟩
  | assign name k => exact (fits_deliver_assign h hs hm hv hk).none
  | binaryRight op token right k =>
    exact Progress.Fits.none ⟨h, .evaluate hk.1 hm hk.2⟩
  | binaryDone op token left k =>
    exact (Progress.fits_deliverMade (k := k) h hm hk (regular_applyBinary op token left v _)).none
  | logicalRight op right k =>
    simp only [deliver]
    split
    · exact Progress.Fits.none ⟨h, .deliver hm hv hk.2⟩
    · exact Progress.Fits.none ⟨h, .evaluate hk.1 hm hk.2⟩
  | unary op token k =>
    exact (Progress.fits_deliverMade (k := k) h hm hk (regular_applyUnary op token v _)).none
  | choose whenTrue whenFalse k =>
    simp only [deliver]
    split
    · exact Progress.Fits.none ⟨h, .evaluate hk.1 hm hk.2.2⟩
    · exact Progress.Fits.none ⟨h, .evaluate hk.2.1 hm hk.2.2⟩
  | callee paren arguments k =>
    have hfits := fits_argumentsFrom paren h hs hm hv (List.forall_mem_nil _) hk.1 hk.2
    cases arguments <;> exact hfits
  | argument paren callee done rest k =>
    have hdone : ∀ u ∈ done ++ [v], u.Fits (st.world K O) := by
      intro u hu
      rcases List.mem_append.1 hu with hu | hu
      · exact hk.2.1 u hu
      · exact List.mem_singleton.1 hu ▸ hv
    have hfits := fits_argumentsFrom paren h hs hm hk.1 hdone hk.2.2.1 hk.2.2.2
    cases rest <;> exact hfits
  | field name k =>
    exact Progress.fits_deliverProperty h hm hk (Store.regular_property h hv name)
  | fieldTarget name value k =>
    refine Progress.Fits.none ?_
    cases v with
    | «instance» i => exact ⟨h, .evaluate hk.1 hm hk.2⟩
    | _ => exact Progress.fits_atToken h _ _
  | fieldValue target name k =>
    have hgrows : (st.world K O).Grows ((st.setField target name.lexeme v).world K O) :=
      ⟨h.setField target name.lexeme hv, World.extends_withStore (Store.extends_setField target)⟩
    exact Progress.Fits.none ⟨hgrows.sound, .deliver (hm.extend hgrows.extend)
      (hv.extend hgrows.extend) (hk.extend hgrows.extend)⟩
  | expression k =>
    simp only [deliver]
    split
    · exact Progress.Fits.none ⟨h, .complete hm (by simp) hk⟩
    · exact Progress.Fits.none ⟨h, .complete hm (by simp) hk⟩
  | print k => exact Progress.Fits.none ⟨h, .complete hm (by simp) hk⟩
  | var name k => exact (fits_deliver_var h hs hm hv hk).none
  | ifThen thenBranch k =>
    obtain ⟨⟨condition, hsite⟩, hk⟩ := hk
    have hnone : thenBranch.declared? = none := (hs.settled hsite).genuine.2.2
    simp only [deliver]
    split
    · exact Progress.Fits.none (fits_branch h (hs.below hsite (.branch rfl)) hm hnone hk)
    · exact Progress.Fits.none ⟨h, .complete hm (by simp) hk⟩
  | ifElse thenBranch elseBranch k =>
    obtain ⟨⟨condition, hsite⟩, hk⟩ := hk
    have hgenuine := (hs.settled hsite).genuine
    have hthen : thenBranch.declared? = none := hgenuine.2.2.2.1
    have helse : elseBranch.declared? = none := hgenuine.2.2.2.2
    -- the second branch is resolved after the first one, which leaves the context as it was
    have hbelow : K ⟨c, os, .statement elseBranch⟩ := by
      have hchild := hs.below hsite (.elseBranch c os condition thenBranch elseBranch)
      rwa [Stmt.resolve_fst c thenBranch hgenuine.2.1, hthen] at hchild
    simp only [deliver]
    split
    · exact Progress.Fits.none (fits_branch h (hs.below hsite (.branch rfl)) hm hthen hk)
    · exact Progress.Fits.none (fits_branch h hbelow hm helse hk)
  | «while» condition body k =>
    have hnone : body.declared? = none := (hs.settled hk.1).genuine.2.2
    simp only [deliver]
    split
    · exact Progress.Fits.none (fits_branch (k := .loop condition body k) h
        (hs.below hk.1 (.branch rfl)) hm hnone hk)
    · exact Progress.Fits.none ⟨h, .complete hm (by simp) hk.2⟩
  | «return» k =>
    refine Progress.Fits.none ⟨h, .complete hm (fun u hu => ?_) hk⟩
    cases hu
    exact hv
  | inherit superclass name statics methods k =>
    obtain ⟨⟨r, -, hsite⟩, hk⟩ := hk
    cases v with
    | «class» d =>
      exact (fits_finishClass (s := some d) h hs hsite hm rfl hk).all
    | _ => exact (Progress.fits_atToken h _ _).none

/-! ## Ends of statements -/

/-- The statements after one that has ended stand where its name has ended. -/
theorem site_next (hs : Surveyed setup.locals K) {s : Code} {rest : List Code}
    (hsite : K ⟨c, os, .body (s :: rest)⟩) :
    K ⟨c, os, .statement s⟩ ∧ K ⟨c.declared s.declared?, os, .body rest⟩ := by
  have hgenuine : s.Genuine := (hs.settled hsite).genuine.1
  rw [← Stmt.resolve_fst c s hgenuine]
  exact ⟨hs.below hsite (.first c os s rest), hs.below hsite (.rest c os s rest)⟩

/-- A statement has ended, normally or with a value that is returned. -/
theorem fits_complete {completion : Completion} {k : StmtCont} (h : (st.world K O).Sound)
    (hs : Surveyed setup.locals K) (hm : (st.world K O).Mirrors st.environment c.scopes os)
    (hv : ∀ v, completion = .returned v → v.Fits (st.world K O))
    (hk : k.Fits (st.world K O) c os) : (st.complete completion k).Fits K O := by
  cases k with
  | program rest =>
    cases rest with
    | nil => exact ⟨by simp [Halt.Legal], h⟩
    | cons s rest =>
      obtain ⟨hos, hsite⟩ := hk
      obtain ⟨hfirst, hrest⟩ := site_next hs hsite
      exact ⟨h, .execute hfirst hm ⟨hos, hrest⟩⟩
  | seq rest k =>
    obtain ⟨hsite, hleaves, hk⟩ := hk
    cases completion with
    | returned v => exact ⟨h, .complete hm hv hk⟩
    | normal =>
      cases rest with
      | nil => exact ⟨h, .complete hm hv hk⟩
      | cons s rest =>
        obtain ⟨hfirst, hrest⟩ := site_next hs hsite
        exact ⟨h, .execute hfirst hm ⟨hrest, hleaves, hk.of_leaves hleaves⟩⟩
  | leave outer k =>
    -- the environment and the context are again those from before the block
    obtain ⟨c', os', hm', hk⟩ := hk
    exact ⟨h, .complete hm' hv hk⟩
  | loop condition body k =>
    obtain ⟨hsite, hk⟩ := hk
    cases completion with
    | normal =>
      exact ⟨h, .evaluate (hs.below hsite (.value (.head _))) hm ⟨hsite, hk⟩⟩
    | returned v => exact ⟨h, .complete hm hv hk⟩
  | activation caller result k =>
    obtain ⟨hresult, c', os', hm', hk⟩ := hk
    -- leaving a function changes the environment and the depth only, so the store is as sound
    have hsound : ((st.leaveFunction caller).world K O).Sound := h
    refine Progress.fits_deliverOr hsound hm' hk ?_
    cases result with
    | returned =>
      cases completion with
      | normal => exact .inl ⟨_, rfl, World.fits_of_not_function (by simp)⟩
      | returned v => exact .inl ⟨v, rfl, hv v rfl⟩
    | constructed i => exact .inl ⟨_, rfl, World.fits_of_not_function (by simp)⟩
    | receiver closure =>
      obtain ⟨v, hvalue, hbinding⟩ := Store.valueIn_of_holds hresult
      exact .inl ⟨v, hvalue, h.values hbinding⟩

end State

/-- A step in a sound world, by what the configuration does next. -/
theorem Config.fits_step {c : Config} {setup : Setup} {K : Site → Prop} {O : List Origin}
    (h : c.Fits K O) (hs : Surveyed setup.locals K) :
    (c.step setup).FitsWithin K O (c.mayOpen setup) := by
  obtain ⟨control, st⟩ := c
  obtain ⟨hsound, hcontrol⟩ := h
  cases hcontrol with
  | evaluate hsite hm hk => exact State.fits_evaluate hsound hs hsite hm hk
  | @superclass c os name r statics methods k hsite hm hk =>
    have hinherit : (ValueCont.inherit r.token name statics methods k).Fits (st.world K O) c os :=
      ⟨⟨r, rfl, hsite⟩, hk⟩
    exact (Progress.fits_deliverOr hsound hm hinherit
      (State.regular_readVariable hsound hm fun d hd => hs.find?_superclass hsite hd)).none
  | execute hsite hm hk => exact State.fits_execute hsound hs hsite hm hk
  | deliver hm hv hk => exact State.fits_deliver hsound hs hm hv hk
  | complete hm hv hk => exact (State.fits_complete hsound hs hm hv hk).none

end Lox
