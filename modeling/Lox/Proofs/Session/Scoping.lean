import Lox.Proofs.Session.History

/-!
# Environments mirror scopes

Variables are scoped lexically. Whenever an expression or a statement is evaluated, the chain of
the current environment consists of one instance of each scope that is open at that place of
the program, and of the globals. A function is created with the environment of its declaration,
or of its class or receiver inside of it, and the chain of its closure never changes. Every
statement of a program starts among the globals, whatever ended the texts before.

## Main definitions

* `Control.node?`: what is evaluated next

## Main results

* `History.environments_mirror`: the environments at every moment of every run
-/

namespace Lox

/-- The expression or statement that is evaluated next. -/
def Control.node? : Control → Option Node
  | .evaluate e _ => some (.expression e)
  | .execute s _ => some (.statement s)
  | .deliver .. | .complete .. => none

section Fits

variable {w : World} {e : EnvId} {control : Control}

/-- What is evaluated next stands at a site whose scopes are mirrored. -/
theorem Control.Fits.site {l : Locals} (h : control.Fits w e) (hs : Surveyed l w.sites)
    (hw : w.Sound) {node : Node} (hnode : control.node? = some node) :
    ∃ p, w.sites p ∧ p.node = node ∧ w.store.Mirrors w.origins e p := by
  cases h with
  | evaluate hsite hm _ =>
    cases hnode
    exact ⟨_, hsite, rfl, hm.mirrors hw (hs.settled hsite)⟩
  | @superclass c os name r statics methods k hsite hm _ =>
    cases hnode
    -- the resolver comes to the superclass when the name of the class is declared
    have hchild : w.sites ⟨c.declared (some name), os, .expression (.variable r)⟩ :=
      hs.superclass_child hsite
    obtain ⟨-, hchain⟩ := hm.mirrors (p := ⟨c, os, _⟩) hw (hs.settled hsite)
    exact ⟨_, hchild, rfl, (hs.settled hchild).context.names, hchain⟩
  | execute hsite hm _ =>
    cases hnode
    exact ⟨_, hsite, rfl, hm.mirrors hw (hs.settled hsite)⟩
  | deliver => cases hnode
  | complete => cases hnode

/-- A statement of a program starts among the globals. -/
theorem Control.Fits.globals {s : Code} {rest : List Code}
    (h : (Control.execute s (.program rest)).Fits w e) : e = Store.globals := by
  cases h with
  | execute _ hm hk =>
    obtain ⟨rfl, -⟩ := hk
    exact hm.eq_globals

end Fits

/-- At every moment of the run of an accepted text after any others:
* each environment has an origin;
* what is evaluated next stands at a site of a program, and at one site only if it has a
  reference, and the chain of the current environment mirrors the scopes that are open there;
* a statement of the program starts among the globals;
* functions of the session keep their closures and the chains of these, up to this moment and
  from it to later ones and to the end of the run;
* a function that a step creates has the current environment as its closure, or an environment
  that was put around a superclass inside of it, or one that was put around a receiver inside the
  closure of a method. -/
theorem History.environments_mirror (texts : List (Options × String)) (o : Options) (source : String)
    {r : Resolved} (hr : (ofTexts texts).session.accepted? source = some r) {n : Nat} {c : Config}
    (hc : ((ofTexts texts).session.launch r).after? ((ofTexts texts).session.setupFor o r) n =
      some c) :
    let history := ofTexts texts
    let setup := history.session.setupFor o r
    let origins := history.origins ++ (history.session.launch r).openedWithin setup n
    let places := SitesOf (history.programs ++ [r.body])
    origins.length = c.state.store.environments.size ∧
      (∀ node ∈ c.control.node?, ∃ p, places p ∧ p.node = node ∧
        c.state.store.Mirrors origins c.state.environment p ∧
        (p.marks ≠ [] → ∀ q, places q → q.node = node → q = p)) ∧
      (∀ s rest, c.control = .execute s (.program rest) →
        c.state.environment = Store.globals) ∧
      (history.session.store.Keeps c.state.store ∧
        (∀ m d, c.after? setup m = some d → c.state.store.Keeps d.state.store) ∧
        (∀ m, c.state.store.Keeps (c.run setup m).state.store)) ∧
      ∀ f fn, (c.step setup).state.store.function? f = some fn →
        c.state.store.function? f = some fn ∨
          c.state.store.Closes (c.step setup).state.store c.state.environment fn := by
  have hv := valid_ofTexts texts
  have hs := hv.surveyed hr o
  have hstart := hv.fits r
  have hfits := Config.fits_after hstart hs hc
  have hclosed := Config.closed_after hstart hs hv.closed hc
  refine ⟨hfits.sound.length, fun node hnode => ?_, fun s rest hcontrol => ?_, ⟨?_, ?_, ?_⟩, ?_⟩
  · obtain ⟨p, hp, hpnode, hmirrors⟩ := hfits.control.site hs hfits.sound hnode
    refine ⟨p, hp, hpnode, hmirrors, fun hmarks q hq hqnode => ?_⟩
    exact (SitesOf.eq_of_node (hv.nodup_accepted hr) hp hq hmarks (hpnode.trans hqnode.symm)).symm
  · have hcontrolFits := hfits.control
    rw [hcontrol] at hcontrolFits
    exact hcontrolFits.globals
  · exact Config.keeps_after hstart hs hv.closed hc
  · exact fun m d hd => Config.keeps_after hfits hs hclosed hd
  · exact fun m => (Config.closed_run hfits hs hclosed m []).2
  · exact (Config.follows_step c _).store.created

/-- After a text that failed inside a block, a function that was declared in a block reads a
variable around it. -/
theorem History.environments_mirror_closure :
    let history := ofTexts [(.still, "{ var a = nil; a(); }")]
    let s := history.session
    ∃ r c ref k,
      s.accepted? "{ var a = nil; fun f() { print a; } f(); }" = some r ∧
        (s.launch r).after? (s.setupFor .still r) 15 = some c ∧
        c.control = .evaluate (.variable ref) k ∧ c.state.environment ≠ Store.globals ∧
        ∃ p, SitesOf (history.programs ++ [r.body]) p ∧ p.node = .expression (.variable ref) ∧
          c.state.store.Mirrors
            (history.origins ++ (s.launch r).openedWithin (s.setupFor .still r) 15)
            c.state.environment p := by
  intro history s
  have hmoment : ((s.accepted? "{ var a = nil; fun f() { print a; } f(); }").bind fun r =>
      (s.launch r).after? (s.setupFor .still r) 15).any (fun c =>
        c.control.read?.isSome && c.state.environment ≠ Store.globals) := by
    decide +kernel
  obtain ⟨c, hc, hmoment⟩ := (Option.any_eq_true ..).1 hmoment
  obtain ⟨r, hr, hc⟩ := Option.bind_eq_some_iff.1 hc
  obtain ⟨hvariable, hinside⟩ := (Bool.and_eq_true ..).mp hmoment
  obtain ⟨ref, hread⟩ := Option.isSome_iff_exists.1 hvariable
  obtain ⟨k, hcontrol⟩ := Control.eq_of_read? hread
  obtain ⟨-, hsite, -⟩ := environments_mirror [(.still, "{ var a = nil; a(); }")] .still _ hr hc
  obtain ⟨p, hp, hnode, hmirrors, -⟩ := hsite _ (by rw [hcontrol]; rfl)
  exact ⟨r, c, ref, k, hr, hc, hcontrol, of_decide_eq_true hinside, p, hp, hnode, hmirrors⟩

end Lox
