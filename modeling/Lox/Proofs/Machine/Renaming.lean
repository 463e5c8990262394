import Lox.Proofs.Machine.Chains
import Lox.Proofs.Machine.Twin

/-!
# Runs under other names

An environment holds the names that the scope declares for which it was made, so where the scopes
of a program are renamed, the environments of its run are. What every environment was made for is
known in a sound world, so at every moment the variables of the next step are called what the
renamed scopes say. Such a program takes the steps of the one it comes from.

## Main definitions

* `Renaming.within`: what the variables of an environment are called instead
* `Renaming.pairing`: twins under other names

## Main results

* `Config.Fits.suits`: what the variables of a step are called
* `Config.twin_renamed`: runs under other names
-/

namespace Lox

/-! ## Environments of scopes -/

namespace Renaming

variable {κ : Renaming} {L : Likeness Occurrence Occurrence} {O : List Origin} {m m' : String}
  {os : List Opener} {scopes : List Scope}

/-- What the variables of an environment are called instead. A receiver and a superclass have
reserved words for names. -/
def within (κ : Renaming) : Origin → String → String
  | .block body => κ.scope (.block body)
  | .call fn _ => κ.scope (.function fn.decl)
  | .globals | .receiver _ | .superclass _ => id

/-- Twins whose environments were made for `O` and are called otherwise. -/
def pairing (κ : Renaming) (L : Likeness Occurrence Occurrence) (O : List Origin) : Pairing where
  likeness := L
  rename e := (O[e.index]?).elim id κ.within
  text := κ.text

theorem within_injective (hκ : κ.Lawful) (o : Origin) : (κ.within o).Injective := by
  cases o with
  | block | call => exact hκ.injective _
  | _ => exact Function.injective_id

theorem within_word (hκ : κ.Lawful) (o : Origin) (k : Keyword) : κ.within o k.text = k.text := by
  cases o with
  | block | call => exact hκ.word _ k
  | _ => rfl

theorem lawful_pairing (hκ : κ.Lawful) (hL : L.Spells κ.text) (O : List Origin) :
    (κ.pairing L O).Lawful where
  injective e := by
    simp only [pairing]
    cases O[e.index]? with
    | none => exact Function.injective_id
    | some o => exact within_injective hκ o
  word e k := by
    simp only [pairing]
    cases O[e.index]? with
    | none => rfl
    | some o => exact within_word hκ o k
  spells := hL

/-- In an environment, the names of the scope for which it was made become what they become in
the scope. -/
theorem within_of_for (hκ : κ.Lawful) {o : Origin} {opener : Opener} (h : o.For opener)
    (hm : m ∈ opener.names) : κ.within o m = κ.scope opener m := by
  cases o <;> cases opener <;> cases h
  · rfl
  · rfl
  · obtain rfl := List.mem_singleton.1 hm
    exact (hκ.word _ .thisWord).symm
  · obtain rfl := List.mem_singleton.1 hm
    exact (hκ.word _ .thisWord).symm
  · obtain rfl := List.mem_singleton.1 hm
    exact (hκ.word _ .superWord).symm

/-- A name that is in no scope stays as it is. -/
theorem Meets.eq_of_findIdx? (h : κ.Meets m m' os scopes)
    (hnone : scopes.findIdx? (·.has m) = none) : m' = m := by
  induction scopes generalizing os with
  | nil => cases os <;> exact h
  | cons scope scopes ih =>
    cases os with
    | nil => exact h
    | cons =>
      rw [List.findIdx?_cons] at hnone
      split at hnone
      · cases hnone
      · next hhas =>
        rw [Meets, if_neg hhas] at h
        exact ih h.2 (Option.map_eq_none_iff.1 hnone)

end Renaming

namespace World

variable {w : World} {κ : Renaming} {L : Likeness Occurrence Occurrence} {O : List Origin}
  {e a : EnvId} {m m' : String} {os : List Opener} {scopes scopes' : List Scope} {d : Nat}

/-- What the variables of an environment with a known origin are called. -/
theorem rename_of_origin? (hO : w.origins <+: O) {o : Origin} (ho : w.origin? e = some o) :
    (κ.pairing L O).rename e = κ.within o := by
  have hlt : e.index < w.origins.length := (List.getElem?_eq_some_iff.1 ho).1
  obtain ⟨later, rfl⟩ := hO
  have helem : (w.origins ++ later)[e.index]? = some o := by
    rw [List.getElem?_append_left hlt]
    exact ho
  simp only [Renaming.pairing, helem, Option.elim_some]

/-- The variables of the globals keep their names. -/
theorem Sound.rename_globals (h : w.Sound) (hO : w.origins <+: O) :
    (κ.pairing L O).rename Store.globals = id :=
  rename_of_origin? hO h.globals

/-- What a name is called in the environment to which its distance leads. The distance may be one
in other scopes with the same openers. -/
theorem Mirrors.rename_of_meets (hκ : κ.Lawful) (hO : w.origins <+: O)
    (h : w.Mirrors e scopes' os)
    (hnames : List.Forall₂ (fun scope o => ∀ n, scope.has n → n ∈ o.names) scopes os)
    (hm : κ.Meets m m' os scopes) (hd : scopes.findIdx? (·.has m) = some d)
    (ha : w.store.ancestor e d = .ok a) : m' = (κ.pairing L O).rename a m := by
  induction h generalizing scopes d with
  | globals =>
    cases hnames
    cases hd
  | inside ho hfor _ hparent _ ih =>
    cases hnames with
    | cons hscope hrest =>
      rw [List.findIdx?_cons] at hd
      rw [Renaming.Meets] at hm
      split at hd
      · next hhas =>
        cases hd
        cases ha
        rw [if_pos hhas] at hm
        rw [rename_of_origin? hO ho, Renaming.within_of_for hκ hfor (hscope _ hhas), hm]
      · next hhas =>
        obtain ⟨d, hinner, rfl⟩ := Option.map_eq_some_iff.1 hd
        rw [if_neg hhas] at hm
        rw [Store.ancestor, hparent] at ha
        exact ih hrest hm.2 hinner ha

/-- What a name is called in the environment of the scope that declares it. -/
theorem Mirrors.rename_of_declares (hκ : κ.Lawful) (hw : w.Sound) (hO : w.origins <+: O)
    (h : w.Mirrors e scopes os) (hnames : ∀ o ∈ os.head?, m ∈ o.names)
    (hm : κ.Declares m m' os) : m' = (κ.pairing L O).rename e m := by
  cases h with
  | globals =>
    rw [hw.rename_globals hO]
    exact hm
  | inside ho hfor =>
    rw [rename_of_origin? hO ho, Renaming.within_of_for hκ hfor (hnames _ rfl)]
    exact hm

end World

/-! ## What a step opens -/

theorem Store.size_defineAll {σ : Store} {e : EnvId} {entries : List (String × Value)} :
    (σ.defineAll e entries).environments.size = σ.environments.size := by
  induction entries generalizing σ with
  | nil => rfl
  | cons x rest ih => exact ih.trans size_define

namespace State

variable {st : State} {setup : Setup} {fn : Function} {arguments : List Value} {k : ValueCont}

/-- A call that is not refused makes an environment for the parameters. -/
theorem size_enter (h : st.depth < setup.callLimit) (result : CallResult) :
    (st.enter setup fn arguments result k).state.store.environments.size =
      st.store.environments.size + 1 := by
  rw [enter, if_neg (Nat.not_le.2 h)]
  exact Store.size_defineAll.trans (Store.size_addEnvironment _)

theorem size_callFunction (hlen : arguments.length = fn.decl.arity)
    (h : st.depth < setup.callLimit) (paren : Token) :
    (st.callFunction setup fn arguments paren k).state.store.environments.size =
      st.store.environments.size + 1 := by
  rw [callFunction, if_pos hlen]
  exact size_enter h _

/-- An initializer has the environment of its receiver as well. -/
theorem size_callClass (hlen : arguments.length = fn.decl.arity)
    (h : st.depth < setup.callLimit) (cls : ClassId) (paren : Token) :
    (st.callClass setup cls (some fn) arguments paren k).state.store.environments.size =
      st.store.environments.size + 2 := by
  simp only [callClass, construct, Option.map_some, Option.getD_some, if_pos hlen]
  have hdepth : ((st.addInstance cls).2.copyFor fn (.instance (st.addInstance cls).1)).2.depth <
      setup.callLimit := h
  rw [size_enter hdepth]
  refine congrArg (· + 1) ?_
  exact Store.size_define.trans (Store.size_addEnvironment _)

end State

namespace Config

variable {setup : Setup} {c d : Config} {m n : Nat}

/-- What is opened after a moment is opened after what was opened before. -/
theorem openedWithin_add (h : c.after? setup m = some d) (n : Nat) :
    c.openedWithin setup (m + n) = c.openedWithin setup m ++ d.openedWithin setup n := by
  induction m generalizing c with
  | zero =>
    cases h
    rw [Nat.zero_add]
    rfl
  | succ m ih =>
    obtain ⟨c', event, hstep, h⟩ := exists_next_of_after? h
    rw [Nat.succ_add]
    simp only [openedWithin, hstep, ih h, List.append_assoc]

/-- What a step of a run opens comes after what was opened before. -/
theorem openedWithin_extends (h : c.after? setup m = some d) (hmn : m < n) :
    c.openedWithin setup m ++ d.opened setup <+: c.openedWithin setup n := by
  obtain ⟨k, rfl⟩ := Nat.exists_eq_add_of_lt hmn
  rw [Nat.add_assoc, openedWithin_add h, openedWithin]
  exact (List.prefix_append_right_inj _).2 (List.prefix_append _ _)

end Config

/-! ## What variables are called -/

namespace State

variable {st : State} {setup : Setup} {K : Site → Prop} {O O' : List Origin} {κ : Renaming}
  {L : Likeness Occurrence Occurrence} {c : Context} {os : List Opener} {scopes : List Scope}
  {text : String}

/-- A variable with a distance is called what its name means in the renamed scopes, and one
without is global. -/
theorem calls (h : (st.world K O).Sound) (hκ : κ.Lawful) (hO : O <+: O') {r : Ref Occurrence}
    (hm : (st.world K O).Mirrors st.environment scopes os) (hc : c.Settled os)
    (hd : setup.locals.distance? r.mark = c.distance? r.token.lexeme)
    (hmeets : κ.Meets r.token.lexeme text os c.scopes) :
    st.Calls (κ.pairing L O') setup r text := by
  unfold Calls
  rw [hd]
  cases hdistance : c.distance? r.token.lexeme with
  | some d => exact fun a ha => hm.rename_of_meets hκ hO hc.names hmeets hdistance ha
  | none =>
    refine ⟨hmeets.eq_of_findIdx? hdistance, fun a ha => ?_⟩
    have hchain : st.store.chain Store.globals = [Store.globals] :=
      Store.chainWithin_globals h.ordered h.ordered.globals
    rw [hchain] at ha
    rw [List.mem_singleton.1 ha, h.rename_globals hO]
    rfl

/-- What is declared next is called in the current environment what it should be. -/
theorem declares (h : (st.world K O).Sound) (hs : Surveyed setup.locals K) (hκ : κ.Lawful)
    (hO : O <+: O') {s : Code} {t : Token} (hsite : K ⟨c, os, .statement s⟩)
    (ht : t ∈ s.declared?) (hm : (st.world K O).Mirrors st.environment scopes os)
    (hdeclares : κ.Declares t.lexeme text os) :
    text = (κ.pairing L O').rename st.environment t.lexeme :=
  hm.rename_of_declares hκ h hO ((hs.settled hsite).mem_names t ht) hdeclares

/-- The parameters of a function are called in an environment for a call of it what their texts
become. -/
theorem suitsParams (hκ : ∀ p, K p → p.Suits κ) {kind : FunctionKind} {fn : Function}
    (hsite : K ⟨c, os, .function kind fn.decl⟩) {copy : Function} {arguments : List Value}
    {i : Nat} (hi : O'[i]? = some (.call copy arguments)) (hcopy : copy.decl = fn.decl) :
    (κ.pairing L O').SuitsParams ⟨i⟩ fn.decl := by
  intro p hp
  simp only [Renaming.pairing, hi, Option.elim_some, Renaming.within, hcopy]
  exact hκ _ hsite p hp

/-- So it is with what is called. -/
theorem suitsCall (h : (st.world K O).Sound) (hκ : ∀ p, K p → p.Suits κ) {callee : Value}
    (hcallee : callee.Fits (st.world K O)) {arguments : List Value} {paren : Token}
    {k : ValueCont}
    (hO : O ++ (st.callOrigins callee arguments).take
      ((st.call setup callee arguments paren k).state.store.environments.size -
        st.store.environments.size) <+: O') :
    st.SuitsCall (κ.pairing L O') setup callee arguments := by
  have hlength : O.length = st.store.environments.size := h.length
  cases callee with
  | function f =>
    intro fn hfn hlen hdepth
    obtain ⟨fn', hfn', hfits⟩ := hcallee f rfl
    have hfn' : st.store.function? f = some fn' := hfn'
    obtain rfl : fn' = fn := by simpa [Store.function, hfn'] using hfn
    obtain ⟨kind, c, openers, hsite, -⟩ := hfits.site
    simp only [call, callOrigins, hfn', hfn, size_callFunction hlen hdepth,
      Nat.add_sub_cancel_left] at hO
    obtain ⟨later, rfl⟩ := hO
    refine suitsParams hκ hsite (?_ : _ = some (Origin.call fn' arguments)) rfl
    simp [← hlength]
  | «class» cls =>
    intro fn hfn hlen hdepth
    obtain ⟨init, hinit, hfits⟩ := regular_initializer h cls
    obtain rfl : init = some fn := Except.ok.inj (hinit.symm.trans hfn)
    obtain ⟨kind, c, -, m, openers, hsite, -⟩ := hfits fn rfl
    simp only [call, callOrigins, hfn, size_callClass hlen hdepth,
      Nat.add_sub_cancel_left] at hO
    obtain ⟨later, rfl⟩ := hO
    refine suitsParams hκ hsite
      (?_ : _ = some (Origin.call (st.copyFor fn .nil).1 arguments)) rfl
    simp [← hlength]
  | _ => trivial

end State

namespace Config

variable {setup setup' : Setup} {K : Site → Prop} {O O' : List Origin} {κ : Renaming}
  {L : Likeness Occurrence Occurrence} {c c' : Config}

/-- In a sound world the variables of the next step are called what they should be. -/
theorem Fits.suits (h : c.Fits K O) (hs : Surveyed setup.locals K) (hκ : κ.Lawful)
    (hsuits : ∀ p, K p → p.Suits κ) (hO : O ++ c.opened setup <+: O') :
    c.Suits (κ.pairing L O') setup := by
  have hprefix : O <+: O' := (List.prefix_append _ _).trans hO
  obtain ⟨control, st⟩ := c
  obtain ⟨hsound, hcontrol⟩ := h
  cases hcontrol with
  | @evaluate c os e k hsite hm hk =>
    cases e with
    | «variable» r | this r =>
      exact State.calls hsound hκ hprefix hm (hs.settled hsite).context (hs.distance? hsite r rfl)
        (hsuits _ hsite)
    | _ => trivial
  | superclass hsite hm hk =>
    -- the resolver comes to it when the class is declared, in scopes with the same openers
    have hchild := hs.superclass_child hsite
    exact State.calls hsound hκ hprefix hm (hs.settled hchild).context (hs.distance? hchild _ rfl)
      (hsuits _ hchild)
  | @execute c os s k hsite hm hk =>
    cases s with
    | var => exact State.declares hsound hs hκ hprefix hsite rfl hm (hsuits _ hsite)
    | function => exact (State.declares hsound hs hκ hprefix hsite rfl hm (hsuits _ hsite)).symm
    | «class» name superclass =>
      cases superclass with
      | none => exact (State.declares hsound hs hκ hprefix hsite rfl hm (hsuits _ hsite).1).symm
      | some r => trivial
    | _ => trivial
  | @deliver c os v k hm hv hk =>
    cases k with
    | assign r k =>
      obtain ⟨⟨value, hsite⟩, -⟩ := hk
      exact State.calls hsound hκ hprefix hm (hs.settled hsite).context (hs.distance? hsite r rfl)
        (hsuits _ hsite)
    | var t k =>
      obtain ⟨outer, initializer, -, hsite, -⟩ := hk
      exact State.declares hsound hs hκ hprefix hsite rfl hm (hsuits _ hsite)
    | inherit superclass name statics methods k =>
      obtain ⟨⟨r, -, hsite⟩, -⟩ := hk
      exact (State.declares hsound hs hκ hprefix hsite rfl hm (hsuits _ hsite).1).symm
    | callee paren rest k =>
      cases rest with
      | nil => exact State.suitsCall hsound hsuits hv hO
      | cons => trivial
    | argument paren callee done rest k =>
      cases rest with
      | nil => exact State.suitsCall hsound hsuits hk.1 hO
      | cons => trivial
    | _ => trivial
  | complete => trivial

/-- A program under other names takes the same steps. -/
theorem twin_renamed (h : c.Fits K O) (hs : Surveyed setup.locals K) (hκ : κ.Lawful)
    (hsuits : ∀ p, K p → p.Suits κ) (hL : L.Spells κ.text) {n : Nat}
    (hsetup : setup.Twin (κ.pairing L (O ++ c.openedWithin setup n)) setup')
    (htwin : c.Twin (κ.pairing L (O ++ c.openedWithin setup n)) [] c') (recent : Transcript) :
    (runFrom setup n c recent).Twin (κ.pairing L (O ++ c.openedWithin setup n))
      (runFrom setup' n c' recent) := by
  refine twin_runFrom (Renaming.lawful_pairing hκ hL _) hsetup htwin (fun m hm d hd => ?_) recent
  refine (fits_after h hs hd).suits hs hκ hsuits ?_
  rw [List.append_assoc]
  exact (List.prefix_append_right_inj _).2 (openedWithin_extends hd hm)

end Config

end Lox
