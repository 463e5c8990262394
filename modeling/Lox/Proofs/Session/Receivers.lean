import Lox.Proofs.Machine.Bindings
import Lox.Proofs.Session.Search

/-!
# Receivers and superclasses

At every moment of a session each function that sees a receiver is the copy of a method of a
class, and the receiver is an instance of the class or of one below it, or, for a static method,
such a class itself. A use of `super` in a member of a class starts its search at the superclass
that the class got when it was declared, whatever the class of the receiver is.

## Main definitions

* `History.bindings`: the methods that got receivers while some texts were run

## Main results

* `History.receivers_ofTexts`: the bindings of every history
* `History.receivers_fit`: methods and their receivers at every moment of every run
-/

namespace Lox.History

/-- The methods that get receivers while some texts are run. -/
def bindingsFrom : History → List (Options × String) → List Binding
  | _, [] => []
  | h, (o, source) :: rest =>
    (match h.session.accepted? source with
      | some r => (h.session.launch r).bindsWithin (h.session.setupFor o r) o.budget
      | none => []) ++ (h.next o source).bindingsFrom rest

/-- The methods that got receivers while some texts were run. -/
def bindings (texts : List (Options × String)) : List Binding := fresh.bindingsFrom texts

variable {h : History} {o : Options} {source : String} {r : Resolved} {bs : List Binding}

/-- The places of accepted programs are enclosed by the scopes that the walk opens. -/
theorem Valid.enclosed (hv : h.Valid) (hr : h.session.accepted? source = some r) :
    ∀ p, SitesOf (h.programs ++ [r.body]) p → p.Enclosed :=
  fun _ ⟨body, hbody, hp⟩ => hp.enclosed (hv.records_accepted hr body hbody).genuine

/-- The run of an accepted text starts with the bindings of those before it. -/
theorem Valid.receivers_launch (hreceivers : h.world.Receivers bs) (r : Resolved) :
    ((h.session.launch r).state.world (SitesOf (h.programs ++ [r.body])) h.origins).Receivers bs :=
  hreceivers.withSites fun _ ⟨body, hbody, hp⟩ => ⟨body, by simp [hbody], hp⟩

/-- What one more text binds. -/
theorem Valid.receivers_next (hv : h.Valid) (hreceivers : h.world.Receivers bs) (o : Options)
    (source : String) :
    (h.next o source).world.Receivers (bs ++ match h.session.accepted? source with
      | some r => (h.session.launch r).bindsWithin (h.session.setupFor o r) o.budget
      | none => []) := by
  unfold History.next
  cases hr : h.session.accepted? source with
  | none =>
    obtain ⟨seen, hrun, -⟩ := Session.run_of_rejected hr o
    rw [hrun, List.append_nil]
    exact hreceivers
  | some r =>
    rw [Session.run_of_accepted hr o]
    exact Config.receivers_run (receivers_launch hreceivers r) (hv.fits r) (hv.surveyed hr o)
      (hv.enclosed hr) o.budget []

/-- The bindings of every history. -/
theorem receivers_ofTexts (texts : List (Options × String)) :
    (ofTexts texts).world.Receivers (bindings texts) := by
  have hfold : ∀ (h : History) bs, h.Valid → h.world.Receivers bs →
      (texts.foldl (fun h x => h.next x.1 x.2) h).world.Receivers (bs ++ h.bindingsFrom texts) := by
    induction texts with
    | nil => exact fun h bs _ hreceivers => by simpa [bindingsFrom] using hreceivers
    | cons x rest ih =>
      intro h bs hv hreceivers
      have hnext := ih _ _ (hv.next x.1 x.2) (hv.receivers_next hreceivers x.1 x.2)
      rwa [List.append_assoc] at hnext
  exact hfold fresh [] valid_fresh (World.receivers_fresh.withSites fun _ h => h.elim)

/-- At every moment of the run of an accepted text after any others:

* a function whose environment holds `this` is the copy of a method of a class that got a receiver;
* whenever a method got a receiver, it is one of a class, and the receiver is an instance of each
  class that has it among its instance methods, or of a class below, and it is each class that has
  it among its static methods, or a class below;
* a use of `super` stands in a member `f` of a class, which was called for a receiver: the method
  that was called is one of a class `cls` and of the same kind as the member, and the search starts
  at the superclass of `cls`, among the methods of that kind, and what it finds is bound to that
  receiver. -/
theorem receivers_fit (texts : List (Options × String)) (o : Options) (source : String)
    {r : Resolved} (hr : (ofTexts texts).session.accepted? source = some r) {n : Nat} {c : Config}
    (hc : ((ofTexts texts).session.launch r).after? ((ofTexts texts).session.setupFor o r) n =
      some c) :
    let setup := (ofTexts texts).session.setupFor o r
    let σ := c.state.store
    let bs := bindings texts ++ ((ofTexts texts).session.launch r).bindsWithin setup n
    (∀ f fn, σ.function? f = some fn → σ.holds fn.closure Keyword.thisWord.text →
        ∃ b ∈ bs, fn.Copies b σ) ∧
      (∀ b ∈ bs, (∃ static cls, σ.Declares static cls b.method) ∧
        ∃ v, σ.binding? b.env Keyword.thisWord.text = some v ∧
          ∀ static cls, σ.Declares static cls b.method → σ.Receives static cls v) ∧
      ∀ ref method k, c.control = .evaluate (.super ref method) k →
        ∃ context inner f m outer,
          SitesOf ((ofTexts texts).programs ++ [r.body]) ⟨context,
            inner ++ .function f :: .receiver m :: .superclass m :: outer,
            .expression (.super ref method)⟩ ∧
          (∀ opener ∈ inner, opener.ofClass = false) ∧
          ∃ b ∈ bs, ∃ member static cls s v,
            σ.function? b.method = some member ∧ member.decl = f ∧ f ∈ m.list static ∧
            σ.InMember c.state.environment (inner.length + 1) b static cls s v ∧
            match σ.found? ⟨static, s, method.lexeme⟩ with
            | some g => ∃ found, σ.function? g = some found ∧ c.step setup =
                .next ⟨.deliver (.function (σ.bind found v).1) k,
                  { c.state with store := (σ.bind found v).2 }⟩ none
            | none => c.step setup =
                .halt (.aborted (.atToken method (.undefinedProperty method.lexeme))) c.state := by
  intro setup σ bs
  have hv := valid_ofTexts texts
  have hs := hv.surveyed hr o
  have henclosed := hv.enclosed hr
  have hfits := Config.fits_after (hv.fits r) hs hc
  have hreceivers := Config.receivers_after (Valid.receivers_launch (receivers_ofTexts texts) r)
    (hv.fits r) hs henclosed hc
  refine ⟨fun f fn hfn hthis => ?_, fun b hb => ?_, fun ref method k hcontrol => ?_⟩
  · obtain ⟨b, hb, henv⟩ := hreceivers.holder hthis
    rcases hreceivers.functions hfn with hcopies | ⟨o, ho, hkind⟩
    · exact hcopies
    · obtain ⟨_, _, _, _, -, -, horigin, -⟩ := hreceivers.bound b hb
      rw [henv, ho] at horigin
      cases horigin
      cases hkind
  · obtain ⟨_, v, static, cls, -, -, -, hthis, hdeclares, hreceives⟩ := hreceivers.bound b hb
    refine ⟨⟨static, cls, hdeclares⟩, v, hthis, fun static' cls' hdeclares' => ?_⟩
    obtain ⟨rfl, rfl⟩ := hreceivers.unique hdeclares hdeclares'
    exact hreceives
  · obtain ⟨control, st⟩ := c
    obtain rfl : control = .evaluate (.super ref method) k := hcontrol
    obtain ⟨-, hcontrol⟩ := hfits
    cases hcontrol with
    | evaluate hsite hm _ =>
      obtain ⟨inner, f, m, outer, rfl, hinner, b, hb, member, static, cls, s, v, hmember, hdecl,
        hkind, hin, -, hread⟩ := State.superSearch hreceivers hs henclosed hsite hm
      refine ⟨_, inner, f, m, outer, hsite, hinner, b, hb, member, static, cls, s, v, hmember,
        hdecl, hkind, hin, ?_⟩
      have hstep : Config.step setup ⟨.evaluate (.super ref method) k, st⟩ =
          Progress.deliverProperty st (st.readSuper setup ref method) k := rfl
      rw [hstep, hread]
      cases hg : st.store.found? ⟨static, s, method.lexeme⟩ with
      | none => rfl
      | some g =>
        obtain ⟨_, -, cls', name, hcls', hfind⟩ := Store.declares_of_found? hg
        obtain ⟨found, hfound, -⟩ := hreceivers.belongs hcls' ⟨cls', name, hcls', hfind⟩
        have hfound' : st.store.function? g = some found := hfound
        refine ⟨found, hfound, ?_⟩
        simp only [Store.methodFor, Store.function, hfound', Except.map]
        rfl

/-- A method that overrides another one and calls it, for an instance of its class. -/
theorem receivers_fit_override :
    let s := (ofTexts []).session
    let source := "class A { m() { return 1; } } class B < A { m() { return super.m(); } } B().m();"
    ∃ r c ref method k,
      s.accepted? source = some r ∧ (s.launch r).after? (s.setupFor .still r) 18 = some c ∧
        c.control = .evaluate (.super ref method) k ∧
        ∃ b ∈ bindings [] ++ (s.launch r).bindsWithin (s.setupFor .still r) 18,
          ∃ d static cls superclass v,
            c.state.store.InMember c.state.environment d b static cls superclass v ∧
              c.state.store.binding? b.env Keyword.thisWord.text = some v := by
  intro s source
  have hmoment : (s.accepted? source).any fun r =>
      ((s.launch r).after? (s.setupFor .still r) 18).any fun c => c.control.superUse?.isSome := by
    decide +kernel
  obtain ⟨r, hr, hmoment⟩ := (Option.any_eq_true ..).1 hmoment
  obtain ⟨c, hc, hcontrol⟩ := (Option.any_eq_true ..).1 hmoment
  obtain ⟨⟨ref, method⟩, huse⟩ := Option.isSome_iff_exists.1 hcontrol
  obtain ⟨k, hsuper⟩ := Control.eq_of_superUse? huse
  obtain ⟨-, hbound, hall⟩ := receivers_fit [] .still source hr hc
  obtain ⟨-, inner, -, -, -, -, -, b, hb, -, static, cls, superclass, v, -, -, -, hin, -⟩ :=
    hall ref method k hsuper
  obtain ⟨-, u, hu, -⟩ := hbound b hb
  have hthis := Store.getAt_of_binding? hin.ancestor hu
  obtain rfl : u = v := Except.ok.inj (hthis.symm.trans hin.this)
  exact ⟨r, c, ref, method, k, hr, hc, hsuper, b, hb, _, static, cls, superclass, u, hin, hu⟩

end Lox.History
