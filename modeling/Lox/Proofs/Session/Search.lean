import Lox.Proofs.Scope.Orderly
import Lox.Proofs.Session.Scoping

/-!
# Distances and search

A variable is reached by its recorded distance, or among the globals if it has none. Searching
the environments outwards for its name may lead to another variable: to one that a nearer scope
declares later. In an orderly program, in which no name is used before the end of its
declaration, both lead to the same variable or to the same error.

## Main results

* `World.Mirrors.owner_eq`: where a search from a chain that mirrors scopes leads to
* `History.variables_searched`: variables of orderly programs at every moment of every run
-/

namespace Lox

namespace World

variable {w : World} {e : EnvId} {scopes : List Scope} {openers : List Opener} {name : String}

/-- A scope in which a name has ended declares it exactly if its environment holds it. -/
theorem Sound.holds_iff (hw : w.Sound) {o : Origin} {scope : Scope} {opener : Opener}
    (ho : w.origin? e = some o) (hfor : o.For opener)
    (hholds : ∀ n, scope.find? n = some true → w.store.holds e n)
    (hnames : scope.has name → name ∈ opener.names)
    (hended : name ∈ opener.names → scope.find? name = some true) :
    w.store.holds e name = scope.has name := by
  rw [Bool.eq_iff_iff]
  constructor
  · intro h
    rw [Table.has, hended (hfor.allows_iff.1 (hw.names h ho))]
    rfl
  · exact fun h => hholds name (hended (hnames h))

/-- A search from a chain that mirrors scopes in which a name has ended leads as far as the first
of them that has it, and to the globals if none does. -/
theorem Mirrors.find?_chain (hw : w.Sound) (h : w.Mirrors e scopes openers)
    (hnames : List.Forall₂ (fun scope o => ∀ n, scope.has n → n ∈ o.names) scopes openers)
    (hends : Ends name scopes openers) {n : Nat} (hn : e.index < n) :
    match scopes.findIdx? (·.has name) with
    | some d => ∃ a, w.store.ancestor e d = .ok a ∧
        (w.store.chainWithin n e).find? (w.store.holds · name) = some a
    | none => (w.store.chainWithin n e).find? (w.store.holds · name) =
        [Store.globals].find? (w.store.holds · name) := by
  induction h generalizing n with
  | globals => rw [Store.chainWithin_globals hw.ordered hn]; rfl
  | @inside e p o scope scopes opener openers ho hfor hholds hparent outer ih =>
    obtain ⟨hscope, hnames⟩ := List.forall₂_cons.1 hnames
    obtain ⟨hended, hends⟩ := List.forall₂_cons.1 hends
    have hsame := hw.holds_iff ho hfor hholds (hscope name) hended
    have hlt := hw.parents hparent
    rw [List.findIdx?_cons, Store.chainWithin_inside hparent hn, List.find?_cons, hsame]
    cases hhas : scope.has name with
    | true => exact ⟨e, rfl, rfl⟩
    | false =>
      have hrest := ih hnames hends (n := n - 1) (by omega)
      cases hd : scopes.findIdx? (·.has name) with
      | none => simpa [hd] using hrest
      | some d =>
        obtain ⟨a, ha, hfind⟩ := by simpa only [hd] using hrest
        exact ⟨a, by rw [Store.ancestor, hparent]; exact ha, hfind⟩

/-- So it leads where the distance of the name does. -/
theorem Mirrors.owner_eq (hw : w.Sound) (h : w.Mirrors e scopes openers) {t : Token}
    (hnames : List.Forall₂ (fun scope o => ∀ n, scope.has n → n ∈ o.names) scopes openers)
    (hends : Ends t.lexeme scopes openers) :
    w.store.owner e t =
      match scopes.findIdx? (·.has t.lexeme) with
      | some d => w.store.ancestor e d
      | none => w.store.owner Store.globals t := by
  have hfind := h.find?_chain hw hnames hends (h.has hw)
  cases hd : scopes.findIdx? (·.has t.lexeme) with
  | some d =>
    obtain ⟨a, ha, hfind⟩ := by simpa only [hd] using hfind
    simp only [Store.owner, Store.owner?, Store.chain, hfind, ha]
  | none =>
    have hglobals := Store.chainWithin_globals hw.ordered (Mirrors.has hw .globals)
    rw [hd] at hfind
    simp only [Store.owner, Store.owner?, Store.chain, hfind, hglobals]

end World

namespace State

variable {st : State} {setup : Setup} {ref : Ref Occurrence}

/-- Reading a variable reads it in the environment in which an assignment sets it. -/
theorem readVariable_eq :
    st.readVariable setup ref =
      match st.variableOwner setup ref with
      | .ok a => st.store.valueIn a ref.token.lexeme
      | .error x => .error x := by
  unfold readVariable variableOwner
  split <;> rfl

/-- Where the scopes that a chain mirrors declare no name that is not there yet, the distance of a
reference leads to the variable that a search finds. -/
theorem variableOwner_eq_owner {K : Site → Prop} {O : List Origin} {c : Context} {os : List Opener}
    (hw : (st.world K O).Sound) (hm : (st.world K O).Mirrors st.environment c.scopes os)
    (hc : c.Settled os) (hends : Ends ref.token.lexeme c.scopes os)
    (hd : setup.locals.distance? ref.mark = c.distance? ref.token.lexeme) :
    st.variableOwner setup ref = st.store.owner st.environment ref.token := by
  unfold variableOwner
  rw [hd]
  exact (hm.owner_eq hw hc.names hends).symm

end State

/-- Sites in one of several programs in which no two references share a mark. -/
theorem SitesOf.visited_of_mark {programs : List (List Code)} {p : Site} {body : List Code}
    (hnodup : (programs.flatMap Stmt.marksAll).Nodup) (hp : SitesOf programs p)
    (hbody : body ∈ programs) {i : Occurrence} (hi : i ∈ p.marks) (hmark : i ∈ Stmt.marksAll body) :
    Visited body p := by
  obtain ⟨other, hother, hvisited⟩ := hp
  obtain ⟨-, hdisjoint⟩ := List.pairwise_flatMap.1 hnodup
  have hsymm : Std.Symm fun a b : List (Stmt Occurrence) =>
      ∀ x ∈ Stmt.marksAll a, ∀ y ∈ Stmt.marksAll b, x ≠ y :=
    ⟨fun a b h x hx y hy => (h y hy x hx).symm⟩
  by_cases hsame : other = body
  · exact hsame ▸ hvisited
  · exact absurd rfl (hdisjoint.forall hother hbody hsame i (hvisited.mem_marks hi) i hmark)

/-- The use of a variable at a site whose scopes are mirrored. -/
structure Site.MirrorsUse (p : Site) (r : Ref Occurrence) (l : Locals) (w : World) (e : EnvId) :
    Prop where
  /-- The site is one of a program. -/
  site : w.sites p
  /-- The environments mirror its scopes. -/
  mirrors : w.Mirrors e p.context.scopes p.openers
  /-- The reference is part of the node. -/
  mark : r.mark ∈ p.marks
  /-- So its name is one that the node uses, -/
  uses : r.token.lexeme ∈ p.node.uses
  /-- and none that it declares. -/
  names : r.token.lexeme ∉ p.node.names
  /-- The distance of the reference is that of its name. -/
  distance? : l.distance? r.mark = p.context.distance? r.token.lexeme

section Uses

variable {w : World} {e : EnvId} {l : Locals} {r : Ref Occurrence}

theorem Control.Fits.read {k : ValueCont} (h : (Control.evaluate (.variable r) k).Fits w e)
    (hs : Surveyed l w.sites) : ∃ p, Site.MirrorsUse p r l w e := by
  cases h with
  | @evaluate c os _ _ hsite hm _ =>
    exact ⟨⟨c, os, .expression (.variable r)⟩, hsite, hm, .head _, .head _, by simp [Node.names],
      hs.distance? hsite r rfl⟩
  | @superclass c os name _ statics methods _ hsite hm _ =>
    refine ⟨⟨c, os, .statement (.class name (some r) statics methods)⟩, hsite, hm, .head _, .head _,
      ?_, hs.distance?_superclass hsite⟩
    simpa [Node.names, Stmt.declaredNames, Stmt.declared?] using hs.superclass_ne hsite

theorem Control.Fits.assigned {v : Value} {k : ValueCont}
    (h : (Control.deliver v (.assign r k)).Fits w e) (hs : Surveyed l w.sites) :
    ∃ p, Site.MirrorsUse p r l w e := by
  cases h with
  | @deliver c os _ _ hm _ hk =>
    obtain ⟨⟨value, hsite⟩, -⟩ := hk
    exact ⟨⟨c, os, .expression (.assign r value)⟩, hsite, hm, .head _, .head _, by simp [Node.names],
      hs.distance? hsite r rfl⟩

end Uses

/-- At every moment of the run of an accepted text after any others, a variable of an orderly
program is read and assigned as by a search from the current environment: its value, or the
error, is the one that the search finds, and an assignment changes the same variable in the same
way, or raises the same error. -/
theorem History.variables_searched (texts : List (Options × String)) (o : Options)
    (source : String) {r : Resolved} (hr : (ofTexts texts).session.accepted? source = some r)
    {n : Nat} {c : Config}
    (hc : ((ofTexts texts).session.launch r).after? ((ofTexts texts).session.setupFor o r) n =
      some c)
    {body : List Code} (hbody : body ∈ (ofTexts texts).programs ++ [r.body])
    (horderly : Stmt.orderlyAll body = true) :
    let setup := (ofTexts texts).session.setupFor o r
    let st := c.state
    (∀ ref k, c.control = .evaluate (.variable ref) k → ref.mark ∈ Stmt.marksAll body →
        st.readVariable setup ref = st.store.get st.environment ref.token) ∧
      ∀ ref v k, c.control = .deliver v (.assign ref k) → ref.mark ∈ Stmt.marksAll body →
        (st.variableOwner setup ref).map (st.store.define · ref.token.lexeme v) =
          st.store.assign st.environment ref.token v := by
  intro setup st
  have hv := valid_ofTexts texts
  have hs := hv.surveyed hr o
  have hfits := Config.fits_after (hv.fits r) hs hc
  let w := st.world (SitesOf ((ofTexts texts).programs ++ [r.body]))
    ((ofTexts texts).origins ++ ((ofTexts texts).session.launch r).openedWithin setup n)
  have howner : ∀ ref p, Site.MirrorsUse p ref setup.locals w st.environment →
      ref.mark ∈ Stmt.marksAll body →
        st.variableOwner setup ref = st.store.owner st.environment ref.token := by
    intro ref p hp hmark
    have hvisited := hp.site.visited_of_mark (hv.nodup_accepted hr) hbody hp.mark hmark
    have hgenuine := (hv.records_accepted hr body hbody).genuine
    refine State.variableOwner_eq_owner hfits.sound hp.mirrors (hvisited.settled hgenuine).context
      ((hvisited.orderly hgenuine horderly).ended _ hp.uses hp.names) hp.distance?
  refine ⟨fun ref k hcontrol hmark => ?_, fun ref v k hcontrol hmark => ?_⟩
  · have hcontrolFits := hfits.control
    rw [hcontrol] at hcontrolFits
    obtain ⟨p, hp⟩ := hcontrolFits.read hs
    rw [State.readVariable_eq, howner ref p hp hmark]
    rfl
  · have hcontrolFits := hfits.control
    rw [hcontrol] at hcontrolFits
    obtain ⟨p, hp⟩ := hcontrolFits.assigned hs
    rw [howner ref p hp hmark, Store.assign]
    cases st.store.owner st.environment ref.token <;> rfl

/-- A function that is called in the block where it is declared assigns a variable of the block and
reads it, with a global variable of the same name. -/
theorem History.variables_searched_closure :
    let s := (ofTexts [(.still, "var a;")]).session
    let source := "{ var a = 1; fun f() { a = 2; print a; } f(); }"
    ∃ r c d ref ref' v k k',
      s.accepted? source = some r ∧ Stmt.orderlyAll r.body = true ∧
        (s.launch r).after? (s.setupFor .still r) 17 = some c ∧
        c.control = .deliver v (.assign ref k) ∧
        (c.state.variableOwner (s.setupFor .still r) ref).map
            (c.state.store.define · ref.token.lexeme v) =
          c.state.store.assign c.state.environment ref.token v ∧
        (s.launch r).after? (s.setupFor .still r) 21 = some d ∧
        d.control = .evaluate (.variable ref') k' ∧
        d.state.readVariable (s.setupFor .still r) ref' =
          d.state.store.get d.state.environment ref'.token := by
  intro s source
  have hmoments : (s.accepted? source).any fun r =>
      Stmt.orderlyAll r.body &&
      ((s.launch r).after? (s.setupFor .still r) 17).any (fun c =>
        c.control.assigned?.any fun ref => ref.mark ∈ Stmt.marksAll r.body) &&
      ((s.launch r).after? (s.setupFor .still r) 21).any (fun d =>
        d.control.read?.any fun ref => ref.mark ∈ Stmt.marksAll r.body) := by
    decide +kernel
  obtain ⟨r, hr, hmoments⟩ := (Option.any_eq_true ..).1 hmoments
  simp only [Bool.and_eq_true] at hmoments
  obtain ⟨⟨horderly, hassign⟩, hread⟩ := hmoments
  obtain ⟨c, hc, hassign⟩ := (Option.any_eq_true ..).1 hassign
  obtain ⟨d, hd, hread⟩ := (Option.any_eq_true ..).1 hread
  obtain ⟨ref, hassigned, hmark⟩ := (Option.any_eq_true ..).1 hassign
  obtain ⟨ref', hvariable, hmark'⟩ := (Option.any_eq_true ..).1 hread
  obtain ⟨v, k, hcontrol⟩ := Control.eq_of_assigned? hassigned
  obtain ⟨k', hcontrol'⟩ := Control.eq_of_read? hvariable
  obtain ⟨-, hc'⟩ := variables_searched [(.still, "var a;")] .still source hr hc
    (List.mem_append_right _ (.head _)) horderly
  obtain ⟨hd', -⟩ := variables_searched [(.still, "var a;")] .still source hr hd
    (List.mem_append_right _ (.head _)) horderly
  exact ⟨r, c, d, ref, ref', v, k, k', hr, horderly, hc, hcontrol,
    hc' ref v k hcontrol (of_decide_eq_true hmark), hd, hcontrol',
    hd' ref' k' hcontrol' (of_decide_eq_true hmark')⟩

end Lox
