import Lox.Proofs.Session.Nodes

/-!
# What was resolved stays resolved

What a run asks the distances for is a reference of the text that is run or of an earlier one, so
it is looked up as it was when that text was resolved. The table of distances is kept under the
identities of nodes; what is found in it does not depend on which identities are used again.

## Main definitions

* `Control.consulted?`: the reference whose distance the next step asks for

## Main results

* `Config.step_of_distance?`: a step asks for no other distance
* `Session.resolutions_permanent`: entries are made once and stay
-/

namespace Lox

/-! ## What steps ask for -/

/-- The reference whose distance the next step asks for. -/
def Control.consulted? : Control → Option (Ref Occurrence)
  | .evaluate (.variable ref) _ | .evaluate (.this ref) _ | .evaluate (.super ref _) _
  | .deliver _ (.assign ref _) => some ref
  | _ => none

/-- A step asks for no distance but one. -/
theorem Config.step_of_distance? {c : Config} {setup : Setup} {l : Locals}
    (h : ∀ ref ∈ c.control.consulted?, l.distance? ref.mark = setup.locals.distance? ref.mark) :
    c.step { setup with locals := l } = c.step setup := by
  obtain ⟨control, st⟩ := c
  cases control with
  | evaluate e k =>
    cases e with
    | «variable» ref | this ref =>
      simp only [step, State.evaluate, State.readVariable, h ref rfl]
    | super ref method => simp only [step, State.evaluate, State.readSuper, h ref rfl]
    | _ => rfl
  | execute | complete => rfl
  | deliver v k =>
    cases k with
    | assign ref k => simp only [step, State.deliver, State.variableOwner, h ref rfl]
    | _ => rfl

/-- The reference whose distance is asked for stands at a place of the programs. -/
theorem Control.Fits.consulted {w : World} {e : EnvId} {control : Control} {l : Locals}
    {ref : Ref Occurrence} (h : control.Fits w e) (hs : Surveyed l w.sites)
    (href : control.consulted? = some ref) : ∃ p, w.sites p ∧ ref ∈ p.reference? := by
  cases h with
  | @evaluate c os e k hsite =>
    cases e with
    | «variable» | this | super =>
      cases href
      exact ⟨_, hsite, rfl⟩
    | _ => cases href
  | superclass hsite =>
    cases href
    exact ⟨_, hs.superclass_child hsite, rfl⟩
  | execute | complete => cases href
  | @deliver c os v k _ _ hk =>
    cases k with
    | assign name k =>
      cases href
      obtain ⟨⟨value, hsite⟩, -⟩ := hk
      exact ⟨_, hsite, rfl⟩
    | _ => cases href

/-- The references of a session and what is recorded of them.

No token stands at two places of a text, whatever is reported of it, so no reference does; and no
two references that were resolved share a number, in one text or in two. Resolving a text makes
at most one entry for each of its own references. The distance of a reference is the one of its
entry, after any further texts as before them. So a function that was made before asks for the
same distances whenever a later text calls it, and every step of a run is taken as if the
distances were still those of the text whose reference it looks up.

The same is found in the table that is kept by identity, whichever identities were used again for
nodes of later texts: a node that is alive has the distance of its number and an identity of its
own, and no node has two entries. -/
theorem Session.resolutions_permanent (before more : List (Options × String)) :
    let texts := before ++ more
    let s := ofTexts texts
    (∀ x ∈ texts, (Part.tokens (Stmt.partsAll (parse x.2).statements)).Nodup) ∧
    ((resolutions texts).flatMap Resolution.marks).Nodup ∧
    (∀ x ∈ resolutions texts, (Part.tokens (Stmt.partsAll x.resolved.body)).Nodup ∧
      (x.resolved.entries.map (·.1)).Nodup ∧ (∀ e ∈ x.resolved.entries, e.1 ∈ x.marks) ∧
      ∀ i ∈ x.marks, ∀ d, s.locals.distance? i = some d ↔ (i, d) ∈ x.resolved.entries) ∧
    (∀ x ∈ resolutions before, x ∈ resolutions texts ∧
      ∀ i ∈ x.marks, s.locals.distance? i = (ofTexts before).locals.distance? i ∧
        ∀ m m', MayHave before m → MayHave texts m' → m.Alive i → m'.Alive i →
          m'.distance? i = m.distance? i) ∧
    (∃ m, MayHave texts m ∧ ∀ x ∈ resolutions texts, ∀ i ∈ x.marks, m.Alive i) ∧
    (∀ m, MayHave texts m → (∀ i, m.Alive i → m.distance? i = s.locals.distance? i) ∧
      (∀ i j a, m.identity? i = some a → m.identity? j = some a → i = j) ∧
      ∀ a b i d d', m.entry? a = some (i, d) → m.entry? b = some (i, d') → a = b ∧ d = d') ∧
    ∀ o source r n c, s.accepted? source = some r →
      (s.launch r).after? (s.setupFor o r) n = some c →
      (∀ f fn, (ofTexts before).store.function? f = some fn →
        c.state.store.function? f = some fn ∧ ∀ i ∈ Stmt.functionMarks fn.decl,
          (s.setupFor o r).locals.distance? i = (ofTexts before).locals.distance? i ∧
          ∀ m m', MayHave before m → MayHave (texts ++ [(o, source)]) m' → m.Alive i →
            m'.Alive i → m'.distance? i = m.distance? i) ∧
      ∀ ref ∈ c.control.consulted?,
        ∃ x ∈ resolutions texts ++ (s.resolution? source).toList, ref.mark ∈ x.marks ∧
          c.step { s.setupFor o r with locals := x.recorded } = c.step (s.setupFor o r) ∧
          ∀ m, MayHave (texts ++ [(o, source)]) m → m.Alive ref.mark →
            m.distance? ref.mark = x.recorded.distance? ref.mark := by
  intro texts s
  have hbefore := recorded_ofTexts before
  have hall := recorded_ofTexts texts
  have hmem : ∀ x ∈ resolutions before, x ∈ resolutions texts := by
    intro x hx
    simp only [texts, resolutions_append]
    exact List.mem_append_left _ hx
  refine ⟨fun x _ => nodup_tokens_parse x.2, hall.nodup, fun x hx => ⟨?_, ?_, ?_, ?_⟩,
    fun x hx => ⟨hmem x hx, fun i hi => ?_⟩, ?_, fun m hm => ⟨?_, ?_, ?_⟩, ?_⟩
  · exact nodup_tokens_of_resolution hx
  · exact Locals.nodup_entries_ofProgram x.before.next x.program
  · exact fun e he => Locals.mem_marksAll_of_mem_entries he
  · exact hall.entries x hx
  · have hsame := hbefore.distance?_eq hall hx (hmem x hx) hi
    refine ⟨hsame, fun m m' hm hm' halive halive' => ?_⟩
    rw [distance?_of_mayHave hm halive, distance?_of_mayHave hm' halive', hsame]
  · obtain ⟨m, hm, hidentity⟩ := exists_mayHave texts
    refine ⟨m, hm, fun x hx i hi => ?_⟩
    rw [Nodes.Alive, hidentity, if_pos (hall.below x hx i hi)]
    rfl
  · exact fun i hi => distance?_of_mayHave hm hi
  · exact (agrees_of_mayHave hm).apart
  · exact fun a b i d d' ha hb => (agrees_of_mayHave hm).entry_unique ha hb
  · intro o source r n c hr hc
    -- the distances of the run are those of the session with one more resolution
    obtain ⟨y, hy, rfl, hrecorded⟩ := resolution?_of_accepted hr
    have hsetup : RecordedIn (s.setupFor o y.resolved).locals (resolutions texts ++ [y]) := by
      have hnext := recorded_ofTexts (texts ++ [(o, source)])
      rw [ofTexts_append, locals_run, hy] at hnext
      rw [resolutions_append, resolutionsFrom, hy] at hnext
      simpa [resolutionsFrom, setupFor, setup, ← hrecorded] using hnext
    have hlocals :
        (ofTexts (texts ++ [(o, source)])).locals = (s.setupFor o y.resolved).locals := by
      rw [locals_ofTexts_concat, hy]
      exact hrecorded
    rw [hy, Option.toList_some]
    refine ⟨fun f fn hfn => ⟨?_, fun i hi => ?_⟩, fun ref href => ?_⟩
    · obtain ⟨t, ht⟩ := Config.steps_of_after? hc
      exact ht.extends.functions ((extends_ofTexts before more).functions hfn)
    · -- the function belongs to an earlier program
      rw [← History.session_ofTexts] at hfn
      obtain ⟨body, hbody, hmarks⟩ := (History.functions_declaredIn before f fn hfn).marks
      obtain ⟨x, hx, rfl⟩ := History.exists_resolution hbody
      have hsame :=
        hbefore.distance?_eq hsetup hx (List.mem_append_left _ (hmem x hx)) (hmarks i hi)
      refine ⟨hsame, fun m m' hm hm' halive halive' => ?_⟩
      rw [distance?_of_mayHave hm halive, distance?_of_mayHave hm' halive', hlocals, hsame]
    · have hv := History.valid_ofTexts texts
      have hs := hv.surveyed (by rw [History.session_ofTexts]; exact hr) o
      have hmoment := Config.fits_after (hv.fits y.resolved) hs
        (by rw [History.session_ofTexts]; exact hc)
      obtain ⟨p, ⟨body, hbody, hp⟩, hpref⟩ := hmoment.control.consulted hs href
      obtain ⟨x, hx, rfl⟩ := History.exists_resolution_of_launched hr hbody
      rw [hy, Option.toList_some] at hx
      have hmark : ref.mark ∈ x.marks := hp.mem_marks (Site.mem_marks_of_reference hpref)
      have hsame : x.recorded.distance? ref.mark =
          (s.setupFor o y.resolved).locals.distance? ref.mark := Option.ext fun d => by
        rw [hsetup.entries x hx ref.mark hmark d]
        exact Locals.distance?_record_iff hmark d
      refine ⟨x, hx, hmark, Config.step_of_distance? fun ref' href' => ?_, fun m hm halive => ?_⟩
      · obtain rfl : ref = ref' := Option.some.inj (href.symm.trans href')
        exact hsame
      · rw [distance?_of_mayHave hm halive, hlocals, hsame]

/-- After a text that the resolver rejects, a function of the text before reads the variable of its
closure one environment outwards. In the table it is found by the identity of the node, while the
text that calls the function has a node at the identity of one that is gone. -/
theorem Session.resolutions_permanent_closure :
    let before := [(Options.still, "var g; { var a = 1; fun f() { return a; } g = f; }")]
    let texts := before ++ [(.still, "{ var a; a; return; }")]
    let s := ofTexts texts
    ∃ r c ref, s.accepted? "g();" = some r ∧
      (s.launch r).after? (s.setupFor .still r) 7 = some c ∧ c.control.consulted? = some ref ∧
      (s.setupFor .still r).locals.distance? ref.mark = some 1 ∧
      (∃ x ∈ resolutions texts ++ (s.resolution? "g();").toList, ref.mark ∈ x.marks ∧
        c.step { s.setupFor .still r with locals := x.recorded } =
          c.step (s.setupFor .still r)) ∧
      ∃ m m', MayHave texts m ∧ MayHave (texts ++ [(.still, "g();")]) m' ∧ m.Alive 1 ∧
        m'.identity? 4 = m.identity? 1 ∧ m'.Alive ref.mark ∧ m'.distance? ref.mark = some 1 := by
  intro before texts s
  have hmoment : ((s.accepted? "g();").bind fun r =>
      ((s.launch r).after? (s.setupFor .still r) 7).map (r, ·)).any (fun x =>
        x.2.control.consulted?.any fun ref =>
          ref.mark = 0 ∧ (s.setupFor .still x.1).locals.distance? ref.mark = some 1) := by
    decide +kernel
  obtain ⟨⟨r, c⟩, hc, href⟩ := (Option.any_eq_true ..).1 hmoment
  obtain ⟨r', hr, hc⟩ := Option.bind_eq_some_iff.1 hc
  obtain ⟨c', hafter, hpair⟩ := Option.map_eq_some_iff.1 hc
  obtain ⟨rfl, rfl⟩ := Prod.mk.inj hpair
  obtain ⟨ref, href, hdistance⟩ := (Option.any_eq_true ..).1 href
  obtain ⟨hzero, hdistance⟩ := of_decide_eq_true hdistance
  -- the node of the assignment to `g` has no entry, so its identity can be used again
  obtain ⟨m, m', hm, hm', hgone, hsame, halive⟩ :=
    exists_mayHave_reused texts (.still, "g();") (i := 1) (j := 4) (by decide +kernel)
      (by decide +kernel) (by decide +kernel) (by decide +kernel)
  have hnode : m'.Alive ref.mark := by
    rw [hzero]
    exact halive 0 (by decide +kernel) (by decide)
  obtain ⟨-, -, -, -, -, -, hruns⟩ :=
    resolutions_permanent before [(.still, "{ var a; a; return; }")]
  obtain ⟨-, hsteps⟩ := hruns .still "g();" r' 7 c' hr hafter
  obtain ⟨x, hx, hmark, hstep, -⟩ := hsteps ref href
  have hlooked : m'.distance? ref.mark = some 1 := by
    rw [distance?_of_mayHave hm' hnode, hzero]
    decide +kernel
  exact ⟨r', c', ref, hr, hafter, href, hdistance, ⟨x, hx, hmark, hstep⟩, m, m', hm, hm', hgone,
    hsame, hnode, hlooked⟩

end Lox
