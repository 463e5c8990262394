import Mathlib.Data.Set.Finite.Lattice
import Lox.Proofs.Machine.Nesting
import Lox.Proofs.Scan.Joined
import Lox.Proofs.Scope.Joined
import Lox.Proofs.Session.Rejected

/-!
# Running texts one by one or joined

Running a text and then another is running both as one text, with the second one on lines of its
own. The statements of the joined text are those of the two, the objects at the end are the same
up to the places of tokens, and so is the error that ends the run.

## Main definitions

* `problems`: what is reported of a text
* `RuntimeError.down`: an error further down
* `Token.among`: how tokens of a text correspond to those of the joined text

## Main results

* `Session.run_joined`: running two texts one by one or joined
-/

namespace Lox

/-- What is reported of a text. -/
def problems (source : String) : List Report :=
  let p := parse source
  if p.reports.isEmpty then (Resolved.ofProgram 0 p.statements).reports else p.reports

theorem problems_eq_nil {source : String} :
    problems source = [] ↔ (parse source).reports = [] ∧
      (Resolved.ofProgram 0 (parse source).statements).reports = [] := by
  by_cases h : (parse source).reports = [] <;> simp [problems, h]

namespace RuntimeError

/-- An error some lines further down. -/
def down (n : Nat) (e : RuntimeError) : RuntimeError := { e with token := e.token.down n }

end RuntimeError

/-- What is seen of a run comes after what was seen before it. -/
theorem Config.runFrom_recent (setup : Setup) (n : Nat) (c : Config) (recent : Transcript) :
    runFrom setup n c recent =
      ⟨(c.run setup n).halt, (c.run setup n).state, (c.run setup n).recent ++ recent⟩ := by
  induction n generalizing c recent with
  | zero => rfl
  | succ n ih =>
    cases hs : c.step setup with
    | next d event =>
      rw [run, runFrom_next hs, runFrom_next hs, ih d (record recent event), ih d (record [] event)]
      cases event <;> simp [record]
    | halt halt st => rw [run, runFrom_halt hs, runFrom_halt hs, List.nil_append]

/-- Answers that print the same, end in the same way and tell errors at corresponding tokens. -/
structure Answer.Twin (T : Token → Token → Prop) (a a' : Answer) : Prop where
  out : a'.transcript.out = a.transcript.out
  ending : a'.ending = a.ending
  errors : List.Forall₂ (fun e e' => e'.cause = e.cause ∧ T e.token e'.token) a.transcript.errors
    a'.transcript.errors

namespace Session

theorem ofTexts_append (texts : List (Options × String)) (o : Options) (source : String) :
    ofTexts (texts ++ [(o, source)]) = ((ofTexts texts).run o source).2 := by
  simp [ofTexts]

variable {T : Token → Token → Prop} {s s' : Session} {source : String} {o : Options}

/-! ## Reports -/

/-- The resolver reports the same whatever it numbers references with. -/
theorem reports_ofProgram {body : List (Stmt Unit)}
    (h : List.Forall₂ (Stmt.Twin (.tokens Eq)) body body) (n m : Occurrence) :
    (Resolved.ofProgram m body).reports = (Resolved.ofProgram n body).reports := by
  have hreports := congrArg Transcript.reports (events_ofProgram h n m)
  rwa [reports_findings, reports_findings] at hreports

/-- A text without problems is run in every session. -/
theorem accepted?_of_problems (h : problems source = []) (s : Session) :
    s.accepted? source = some (Resolved.ofProgram s.locals.next (parse source).statements) := by
  obtain ⟨hparse, hresolve⟩ := problems_eq_nil.1 h
  have hsame :=
    reports_ofProgram (Twin.parse_self (T := Eq) (fun _ _ => rfl) hparse) 0 s.locals.next
  simp [accepted?, hparse, hsame, hresolve]

/-- A text whose statements correspond to those of a text without problems has none. -/
theorem problems_of_twins {source' : String} (hT : ∀ {t t'}, T t t' → t'.lexeme = t.lexeme)
    (h : problems source = []) (hparse : (parse source').reports = [])
    (hbody : List.Forall₂ (Stmt.Twin (.tokens T)) (parse source).statements
      (parse source').statements) : problems source' = [] :=
  problems_eq_nil.2
    ⟨hparse, (Twin.findings hT hbody 0 0).reports_eq_nil.2 (problems_eq_nil.1 h).2⟩

/-- Nothing is reported of statements after others if nothing is reported of either. -/
theorem problems_append {a b joined : String} {body : List (Stmt Unit)}
    (hT : ∀ {t t'}, T t t' → t'.lexeme = t.lexeme) (ha : problems a = []) (hb : problems b = [])
    (hparse : (parse joined).reports = [])
    (hstatements : (parse joined).statements = (parse a).statements ++ body)
    (hbody : List.Forall₂ (Stmt.Twin (.tokens T)) (parse b).statements body) :
    problems joined = [] := by
  obtain ⟨hparseA, hresolveA⟩ := problems_eq_nil.1 ha
  have hrest := (Twin.findings hT hbody 0
    (Resolved.ofProgram 0 (parse a).statements).next).reports_eq_nil.2 (problems_eq_nil.1 hb).2
  refine problems_eq_nil.2 ⟨hparse, ?_⟩
  rw [hstatements, Resolved.ofProgram_append 0 (genuineAll_parse hparseA)]
  exact (List.filterMap_append).trans (List.append_eq_nil_iff.2 ⟨hresolveA, hrest⟩)

/-! ## Answers -/

theorem out_ending (o : Options) (halt : Option Halt) : Transcript.out (ending o halt).2 = "" := by
  unfold ending
  split
  · split <;> rfl
  all_goals rfl

theorem out_acceptedEvents (p : Source) (r : Resolved) :
    Transcript.out (acceptedEvents p r) = "" := by
  refine Transcript.out_of_silent fun e he => ?_
  rcases List.mem_append.1 he with he | he
  · exact silent_parseEvents _ e he
  · exact silent_findings _ e he

/-- What the run of an accepted text prints. -/
theorem out_of_accepted {r : Resolved} (hr : s.accepted? source = some r) (o : Options) :
    Transcript.out (s.run o source).1.transcript = Transcript.out (s.outcome o r).transcript := by
  simp [run_of_accepted hr o, out_acceptedEvents, out_ending]

/-- The error of an accepted text is told when it ends. -/
theorem errors_of_accepted {r : Resolved} (hr : s.accepted? source = some r) (o : Options) :
    Transcript.errors (s.run o source).1.transcript =
      Transcript.errors (ending o (s.outcome o r).halt).2 := by
  simp [run_of_accepted hr o, errors_acceptedEvents, errors_outcome]

/-- A text that completes tells no error. -/
theorem errors_of_completed (h : (s.run o source).1.ending = .completed) :
    Transcript.errors (s.run o source).1.transcript = [] := by
  have hlength := length_errors_run s o source
  rw [if_neg (by rw [h]; exact Ending.noConfusion)] at hlength
  exact List.eq_nil_of_length_eq_zero hlength

/-- Twins end in the same way, with errors at tokens that correspond, unless a name is missing that
became another one. -/
theorem ending_of_twin {P : Pairing} (hT : ∀ t t', P.likeness.either t t' → T t t')
    {x x' : Option Halt} (h : Option.Rel (Halt.Twin P) x x')
    (hmissing : ∀ e name, x = some (.aborted (.fault (.missingName name))) →
      P.rename e name = name) (o : Options) :
    (ending o x').1 = (ending o x).1 ∧
      List.Forall₂ (fun e e' => e'.cause = e.cause ∧ T e.token e'.token)
        (Transcript.errors (ending o x).2) (Transcript.errors (ending o x').2) := by
  cases h with
  | none => exact ⟨rfl, .nil⟩
  | some h =>
    cases h with
    | finished | value => exact ⟨rfl, .nil⟩
    | aborted h =>
      cases h with
      | error ht cause =>
        refine ⟨rfl, ?_⟩
        have ht : T _ _ := hT _ _ ht
        cases htrace : o.trace <;> simp [Abort.atToken, ending, htrace, Transcript.errors,
          Event.error?, ht]
      | missing e name =>
        rw [hmissing e name rfl]
        exact ⟨rfl, .nil⟩
      | fault | stackOverflow => exact ⟨rfl, .nil⟩

/-- What accepted texts are answered whose runs are twins. -/
theorem answer_of_outcome {source' : String} {r r' : Resolved} {P : Pairing}
    (hr : s.accepted? source = some r) (hr' : s'.accepted? source' = some r')
    (h : (s.outcome o r).Twin P (s'.outcome o r'))
    (hT : ∀ t t', P.likeness.either t t' → T t t')
    (hmissing : ∀ e name, (s.outcome o r).halt = some (.aborted (.fault (.missingName name))) →
      P.rename e name = name) :
    (s.run o source).1.Twin T (s'.run o source').1 := by
  obtain ⟨hending, herrors⟩ := ending_of_twin hT h.halt hmissing o
  refine ⟨?_, ?_, ?_⟩
  · rw [out_of_accepted hr o, out_of_accepted hr' o, Run.transcript, h.recent, Run.transcript]
  · rw [run_of_accepted hr o, run_of_accepted hr' o]
    exact hending
  · rwa [errors_of_accepted hr o, errors_of_accepted hr' o]

/-- What twin texts are answered in twin sessions, and what becomes of these. -/
theorem Twin.run_twins {source' : String} (hT : ∀ {t t'}, T t t' → t'.lexeme = t.lexeme)
    (h : s.Twin T s') (o : Options) (hp : problems source = []) (hp' : problems source' = [])
    (hbody : List.Forall₂ (Stmt.Twin (.tokens T)) (parse source).statements
      (parse source').statements) :
    (s.run o source).1.Twin T (s'.run o source').1 ∧
      (s.run o source).2.Twin T (s'.run o source').2 := by
  have hr := accepted?_of_problems hp s
  have hr' := accepted?_of_problems hp' s'
  have houtcome := h.outcome hT hbody o
  refine ⟨answer_of_outcome hr hr' houtcome (fun _ _ ht => ht.elim id id) fun _ _ _ => rfl, ?_⟩
  rw [run_of_accepted hr o, run_of_accepted hr' o]
  exact ⟨houtcome.state.store, houtcome.state.readings, houtcome.state.operations⟩

/-! ## One text after another -/

section Append

variable {first second body : List (Stmt Unit)}

/-- The number of steps of a text. -/
def steps (s : Session) (o : Options) (source : String) : Nat :=
  let r := Resolved.ofProgram s.locals.next (parse source).statements
  (s.launch r).taken (s.setupFor o r) o.budget

/-- The launch of a program that is followed by a twin of another. -/
theorem Twin.launch_append (h : s.Twin T s) (body : List (Stmt Unit))
    (hT : ∀ {t t'}, T t t' → t'.lexeme = t.lexeme)
    (hfirst : List.Forall₂ (Stmt.Twin (.tokens T)) first first) (hgenuine : Stmt.GenuineAll first) :
    let r := Resolved.ofProgram s.locals.next first
    let rest := Resolved.ofProgram r.next body
    let whole := Resolved.ofProgram s.locals.next (first ++ body)
    (s.launch r).Twin (pairing T (s.locals.record r) (s.locals.record whole)) rest.body
      (s.launch whole) := by
  intro r rest whole
  have hnext : (s.locals.record r).next = r.next :=
    Locals.next_record (Locals.numbers_ofProgram s.locals.next first).le
  have hwhole : s.locals.record whole =
      (s.locals.record r).record (Resolved.ofProgram (s.locals.record r).next body) := by
    rw [Locals.record_append s.locals hgenuine, hnext]
  have hcode : List.Forall₂ (Stmt.Twin (Resolved.likeness (.tokens T) (s.locals.record r)
      (s.locals.record whole))) r.body r.body := by
    refine Stmt.Twin.impAll _ (Resolved.twin_record Renaming.lawful_keep (spells hT) s.locals
      s.locals hfirst fun _ _ => Site.suits_keep _) fun x _ => ?_
    cases x with
    | token | name => exact fun _ h => h
    | mark =>
      rw [hwhole]
      exact fun _ h => h.extend_right (Locals.extends_record _ body)
  have hstore : s.store.Twin (pairing T (s.locals.record r) (s.locals.record whole)) s.store := by
    have hfirst := s.locals.extends_record first
    have hrecorded :=
      ((h.extend_left hfirst).extend_right hfirst).extend_right (Locals.extends_record _ body)
    rw [← hwhole] at hrecorded
    exact hrecorded.store
  have hbody : whole.body = r.body ++ rest.body := by
    rw [show whole = _ from Resolved.ofProgram_append s.locals.next hgenuine]
  refine ⟨?_, rfl, hstore, rfl, rfl, rfl⟩
  show Control.Twin _ _ (.complete .normal (.program r.body))
    (.complete .normal (.program whole.body))
  rw [hbody]
  exact .complete .normal (.program hcode)

/-- A run that completes comes to the end of the program. -/
theorem halt_of_completed {halt : Option Halt} (h : (ending o halt).1 = .completed) :
    ∃ x, halt = some x ∧ ∀ a, x ≠ .aborted a := by
  cases halt with
  | none => cases h
  | some x =>
    refine ⟨x, rfl, ?_⟩
    rintro a rfl
    cases a <;> cases h

/-- The references of a text and of a program after it are numbered as those of both in one program,
so the same distances are recorded. -/
theorem record_run_append {a : String} {r : Resolved} (hr : s.accepted? a = some r) (o : Options)
    (body : List (Stmt Unit)) :
    r.next = (s.run o a).2.locals.next ∧
      s.locals.record (Resolved.ofProgram s.locals.next ((parse a).statements ++ body)) =
        (s.run o a).2.locals.record (Resolved.ofProgram (s.run o a).2.locals.next body) := by
  obtain ⟨hparse, rfl, -⟩ := accepted?_eq_some hr
  rw [run_of_accepted hr o]
  have hnext : (Resolved.ofProgram s.locals.next (parse a).statements).next =
      (s.locals.record (Resolved.ofProgram s.locals.next (parse a).statements)).next :=
    (Locals.next_record (Locals.numbers_ofProgram s.locals.next _).le).symm
  refine ⟨hnext, ?_⟩
  rw [Locals.record_append s.locals (genuineAll_parse hparse), hnext]

/-- The run of one text and then of a program is that of both in one program: the first text ends
among the globals, so the second program starts where the joined one goes on. -/
theorem outcome_append {past : History} (hv : past.Valid)
    (hT : ∀ {t t'}, T t t' → t'.lexeme = t.lexeme) {a : String}
    (hself : past.session.Twin T past.session)
    (hfirst : List.Forall₂ (Stmt.Twin (.tokens T)) (parse a).statements (parse a).statements)
    (hbody : List.Forall₂ (Stmt.Twin (.tokens T)) second body) {r : Resolved}
    (hr : past.session.accepted? a = some r)
    (hend : (past.session.run o a).1.ending = .completed) (m : Nat) :
    let s := past.session
    let between := (s.run o a).2
    let rest := Resolved.ofProgram between.locals.next second
    let whole := Resolved.ofProgram s.locals.next ((parse a).statements ++ body)
    let latter := between.outcome { o with budget := m + 1 } rest
    Run.Twin (pairing T (between.locals.record rest) (s.locals.record whole))
      ⟨latter.halt, latter.state, latter.recent ++ (s.outcome o r).recent⟩
      (s.outcome { o with budget := s.steps o a + (m + 1) } whole) := by
  intro s between rest whole latter
  have hrun := run_of_accepted hr o
  obtain ⟨hparse, hr', -⟩ := accepted?_eq_some hr
  have hgenuine := genuineAll_parse hparse
  have hbetween : between = ⟨(s.outcome o r).state.store, s.locals.record r,
      (s.outcome o r).state.readings, (s.outcome o r).state.operations⟩ := congrArg Prod.snd hrun
  obtain ⟨hnext, hwhole⟩ : r.next = between.locals.next ∧ s.locals.record whole =
      between.locals.record (Resolved.ofProgram between.locals.next body) :=
    record_run_append hr o body
  -- the first text comes to its end, outside of all calls
  rw [hrun] at hend
  obtain ⟨x, hx, hnot⟩ := halt_of_completed hend
  obtain ⟨rfl, henvironment, hdepth⟩ :=
    Config.state_of_halt (hv.fits r) rfl (hv.surveyed hr o) hx hnot
  subst hr'
  -- there the joined program goes on with what is left of it
  obtain ⟨st', hstate, hrest⟩ := Config.exists_runFrom_finished (Twin.lawful hT _ _)
    (Twin.setup o _ _) (hself.launch_append body hT hfirst hgenuine)
    (fun _ _ _ _ => Config.suits_keep _ _ _) hx
  rw [hnext] at hrest
  -- which is a twin of the second program in a twin state
  have hcode := Resolved.twin_record Renaming.lawful_keep (Twin.spells hT) between.locals
    between.locals hbody fun _ _ => Site.suits_keep _
  rw [← hwhole] at hcode
  have hstart :
      between.Twin T ⟨st'.store, s.locals.record whole, st'.readings, st'.operations⟩ := by
    rw [hbetween]
    exact ⟨hstate.store, hstate.readings, hstate.operations⟩
  have hlaunch : (between.launch rest).Twin
      (pairing T (between.locals.record rest) (s.locals.record whole)) []
      (.ofProgram st' (Resolved.ofProgram between.locals.next body).body) :=
    Config.twin_ofProgram ⟨hstate.environment.trans henvironment,
      (hstart.extend_left (between.locals.extends_record second)).store,
      hstate.depth.trans hdepth, hstart.readings, hstart.operations⟩ hcode
  have htwin := Config.twin_runFrom (Twin.lawful hT _ _) (Twin.setup o _ _) hlaunch
    (n := m + 1) (fun _ _ _ _ => Config.suits_keep _ _ _)
    (s.outcome o (Resolved.ofProgram s.locals.next (parse a).statements)).recent
  rw [Config.runFrom_recent] at htwin
  have houtcome : s.outcome { o with budget := s.steps o a + (m + 1) } whole = _ := hrest m
  rw [houtcome]
  exact htwin

/-- One text before another that corresponds to the rest of a third. -/
theorem run_append {past : History} (hv : past.Valid) (hT : ∀ {t t'}, T t t' → t'.lexeme = t.lexeme)
    {a b joined : String} (hself : past.session.Twin T past.session)
    (hfirst : List.Forall₂ (Stmt.Twin (.tokens T)) (parse a).statements (parse a).statements)
    (ha : problems a = []) (hb : problems b = []) (hjoined : problems joined = [])
    (hstatements : (parse joined).statements = (parse a).statements ++ body)
    (hbody : List.Forall₂ (Stmt.Twin (.tokens T)) (parse b).statements body)
    (hend : (past.session.run o a).1.ending = .completed) (m : Nat) :
    let s := past.session
    let first := s.run o a
    let second := first.2.run { o with budget := m + 1 } b
    let whole := s.run { o with budget := s.steps o a + (m + 1) } joined
    Answer.Twin T ⟨first.1.transcript ++ second.1.transcript, second.1.ending⟩ whole.1 ∧
      second.2.Twin T whole.2 := by
  intro s first second whole
  have hr := accepted?_of_problems ha s
  have hsecond := accepted?_of_problems hb first.2
  have hwhole := accepted?_of_problems hjoined s
  have houtcome := outcome_append hv hT hself hfirst hbody hr hend m
  rw [← hstatements] at houtcome
  have hrunSecond : second = _ := run_of_accepted hsecond _
  have hrunWhole : whole = _ := run_of_accepted hwhole _
  obtain ⟨hending, herrors⟩ :=
    ending_of_twin (T := T) (fun _ _ ht => ht.elim id id) houtcome.halt (fun _ _ _ => rfl) o
  refine ⟨⟨?_, ?_, ?_⟩, ?_⟩
  · have hprinted := congrArg Transcript.out (congrArg List.reverse houtcome.recent)
    rw [out_of_accepted hwhole, Transcript.out_append, out_of_accepted hr, out_of_accepted hsecond,
      ← Transcript.out_append]
    simpa [Run.transcript] using hprinted
  · rw [hrunWhole, hrunSecond]
    exact hending
  · rw [errors_of_accepted hwhole, Transcript.errors_append, errors_of_completed hend,
      List.nil_append, errors_of_accepted hsecond]
    exact herrors
  · rw [hrunWhole, hrunSecond]
    exact ⟨houtcome.state.store, houtcome.state.readings, houtcome.state.operations⟩

end Append

/-! ## Errors and lines -/

/-- Errors at tokens that correspond by a mapping. -/
theorem errors_eq_map {f : Token → Token} {es es' : List RuntimeError}
    (h : List.Forall₂ (fun e e' => e'.cause = e.cause ∧ e'.token = f e.token) es es') :
    es' = es.map fun e => ⟨e.cause, f e.token⟩ := by
  induction h with
  | nil => rfl
  | @cons e e' _ _ h _ ih =>
    obtain ⟨cause, token⟩ := e'
    obtain ⟨rfl, rfl⟩ := h
    rw [List.map_cons, ih]

/-- A text below some empty lines has no problems if it has none without them. -/
theorem problems_below {b : String} (hb : problems b = []) (n : Nat) :
    problems (below n b) = [] := by
  have hparse := (problems_eq_nil.1 hb).1
  obtain ⟨hscan, htokens⟩ := scan_below (scan_of_parse hparse) n
  have hdown :
      List.Forall₂ (fun t t' => t' = t.down n) (scan b).tokens (scan (below n b)).tokens := by
    rw [htokens]
    exact List.forall₂_map_right_iff.2 (List.forall₂_same.2 fun _ _ => rfl)
  obtain ⟨hreports, htwins⟩ := twin_parse (fun h => by rw [h]; rfl) hparse hscan hdown
  exact problems_of_twins (fun h => by rw [h]; rfl) hb hreports htwins

/-- The tokens of a text below some empty lines and further down. -/
theorem forall₂_below {b : String} (hb : (parse b).reports = []) (n k : Nat) :
    List.Forall₂ (fun t t' => t' = t.onto n k) (scan (below n b)).tokens
      ((scan b).tokens.map (Token.down k)) := by
  rw [(scan_below (scan_of_parse hb) n).2]
  exact List.forall₂_map_left_iff.2 (List.forall₂_map_right_iff.2
    (List.forall₂_same.2 fun t _ => (t.onto_down n k).symm))

/-- The statements of a text below some empty lines and below others. -/
theorem twin_below {b : String} (hb : problems b = []) (n k : Nat) :
    List.Forall₂ (Stmt.Twin (.tokens fun t t' => t' = t.onto n k)) (parse (below n b)).statements
      (parse (below k b)).statements := by
  have hparse := (problems_eq_nil.1 hb).1
  obtain ⟨hscan, htokens⟩ := scan_below (scan_of_parse hparse) k
  have hbelow := (problems_eq_nil.1 (problems_below hb n)).1
  refine (twin_parse (fun h => by rw [h, Token.kind_onto]) hbelow hscan ?_).2
  rw [htokens]
  exact forall₂_below hparse n k

/-- In a session without tokens below some line, an error of a text that is moved from there moves
with it if it is at one of its tokens. -/
theorem errors_below {texts : List (Options × String)} {b : String} (hb : problems b = []) {n : Nat}
    (hn : ∀ x ∈ texts, ∀ t ∈ (scan x.2).tokens, t.line < n) (o : Options) (k : Nat) :
    Transcript.errors ((ofTexts texts).run o (below k b)).1.transcript =
      (Transcript.errors ((ofTexts texts).run o (below n b)).1.transcript).map fun e =>
        ⟨e.cause, e.token.onto n k⟩ := by
  have hT : ∀ {t t' : Token}, t' = t.onto n k → t'.lexeme = t.lexeme := fun h => by
    rw [h, Token.lexeme_onto]
  have hself := twin_ofTexts texts hT fun x hx t ht => (Token.onto_of_lt (hn x hx t ht) k).symm
  exact errors_eq_map (hself.run_twins hT o (problems_below hb n) (problems_below hb k)
    (twin_below hb n k)).1.errors

/-- A text before another on lines of its own, where the tokens of a third correspond to those of
the other further down. -/
theorem run_before {texts : List (Options × String)} (hT : ∀ {t t'}, T t t' → t'.lexeme = t.lexeme)
    (hkind : ∀ {t t'}, T t t' → t'.kind = t.kind) {a b c : String} (ha : problems a = [])
    (hb : problems b = []) (hc : problems c = []) (hjoined : problems (a ++ "\n" ++ b) = [])
    (hself : ∀ x ∈ a :: texts.map (·.2), ∀ t ∈ (scan x).tokens, T t t)
    (htokens : List.Forall₂ T (scan c).tokens ((scan b).tokens.map (Token.down (lines a))))
    (hend : ((ofTexts texts).run o a).1.ending = .completed) (m : Nat) :
    let s := ofTexts texts
    let first := s.run o a
    let second := first.2.run { o with budget := m + 1 } c
    let whole := s.run { o with budget := s.steps o a + (m + 1) } (a ++ "\n" ++ b)
    Answer.Twin T ⟨first.1.transcript ++ second.1.transcript, second.1.ending⟩ whole.1 ∧
      second.2.Twin T whole.2 := by
  have hparseA := (problems_eq_nil.1 ha).1
  obtain ⟨hscan, hsplit⟩ :=
    scan_joined (scan_of_parse hparseA) (scan_of_parse (problems_eq_nil.1 hb).1)
  obtain ⟨-, body, hstatements, hbody⟩ :=
    parse_append hkind hparseA (problems_eq_nil.1 hc).1 hscan hsplit htokens
  have htwin := twin_ofTexts texts hT fun x hx =>
    hself x.2 (.tail _ (List.mem_map_of_mem hx))
  have hfirst := Twin.parse_self (hself a (.head _)) hparseA
  rw [← History.session_ofTexts] at hend htwin ⊢
  exact run_append (History.valid_ofTexts texts) hT htwin hfirst ha hc hjoined hstatements hbody
    hend m

/-- The tokens of texts are all above some line. -/
theorem exists_lines_lt (texts : List String) :
    ∃ n, ∀ x ∈ texts, ∀ t ∈ (scan x).tokens, t.line < n := by
  obtain ⟨n, hn⟩ := (List.finite_toSet (texts.flatMap fun x =>
    (scan x).tokens.map (·.line))).bddAbove
  refine ⟨n + 1, fun x hx t ht => Nat.lt_succ_of_le (hn ?_)⟩
  exact List.mem_flatMap.2 ⟨x, hx, List.mem_map_of_mem ht⟩

/-- The only error of a run that is moved is as far down as all errors that move with it. -/
theorem map_onto {es : List RuntimeError} (hes : es.length ≤ 1) (n k : Nat) :
    (es.map fun e => (⟨e.cause, e.token.onto n k⟩ : RuntimeError)) =
      (es.map fun e => (⟨e.cause, e.token.onto n 0⟩ : RuntimeError)).map
        (·.down (if es.all (n ≤ ·.token.line) then k else 0)) := by
  cases es with
  | nil => rfl
  | cons e rest =>
    obtain rfl := List.eq_nil_of_length_eq_zero (Nat.le_zero.1 (Nat.le_of_succ_le_succ hes))
    by_cases hline : n ≤ e.token.line
    · simp [hline, RuntimeError.down, Token.onto_of_le hline k]
    · have hlt := Nat.lt_of_not_le hline
      simp [hline, RuntimeError.down, Token.down, Token.onto_of_lt hlt]

/-- Running a text and then another is running both as one text, the second one on lines of its
own: if neither has a problem, then nothing is reported of the joined text, and its statements are
those of the first and those of the second, further down. If the first text completes, then, for
the same further steps, the same is printed, the run ends in the same way, the objects are the
same up to the places of tokens, and so is an error: it has moved down by the lines of the first
text if it is at a token that moves with the second text, and else it is at the same place. -/
theorem run_joined (texts : List (Options × String)) (o : Options) {a b : String}
    (ha : problems a = []) (hb : problems b = []) :
    let s := ofTexts texts
    let joined := a ++ "\n" ++ b
    let earlier := a :: texts.map (·.2)
    problems joined = [] ∧
      (∃ body, (parse joined).statements = (parse a).statements ++ body ∧
        List.Forall₂ (Stmt.Twin (.tokens fun t t' => t' = t.down (lines a)))
          (parse b).statements body) ∧
      ((s.run o a).1.ending = .completed → ∃ n, ∀ m,
        let first := s.run o a
        let second := first.2.run { o with budget := m + 1 } b
        let whole := s.run { o with budget := n + (m + 1) } joined
        whole.1.transcript.out = first.1.transcript.out ++ second.1.transcript.out ∧
          whole.1.ending = second.1.ending ∧
          second.2.Twin (Token.Moved earlier b (lines a)) whole.2 ∧
          ∃ moves : Bool,
            whole.1.transcript.errors =
                second.1.transcript.errors.map (·.down (if moves then lines a else 0)) ∧
              (∀ k, (first.2.run { o with budget := m + 1 } (below k b)).1.transcript.errors =
                second.1.transcript.errors.map (·.down (if moves then k else 0))) ∧
              ∀ e ∈ second.1.transcript.errors, if moves then e.token ∈ (scan b).tokens
                else ∃ x ∈ earlier, e.token ∈ (scan x).tokens) := by
  intro s joined earlier
  have hparseA := (problems_eq_nil.1 ha).1
  have hparseB := (problems_eq_nil.1 hb).1
  obtain ⟨hscan, htokens⟩ := scan_joined (scan_of_parse hparseA) (scan_of_parse hparseB)
  obtain ⟨hparse, body, hstatements, hbody⟩ := parse_append (R := fun t t' => t' = t.down (lines a))
    (fun h => by rw [h]; rfl) hparseA hparseB hscan htokens
    (List.forall₂_map_right_iff.2 (List.forall₂_same.2 fun _ _ => rfl))
  have hjoined := problems_append (fun h => by rw [h]; rfl) ha hb hparse hstatements hbody
  refine ⟨hjoined, ⟨body, hstatements, hbody⟩, fun hend => ⟨s.steps o a, fun m => ?_⟩⟩
  intro first second whole
  obtain ⟨hanswer, htwin⟩ := run_before (T := Token.Moved earlier b (lines a)) (·.lexeme) (·.kind)
    ha hb hb hjoined (fun x hx t ht => .inr ⟨⟨x, hx, ht⟩, rfl⟩)
    (List.forall₂_map_right_iff.2 (List.forall₂_same.2 fun t ht => .inl ⟨ht, rfl⟩)) hend m
  refine ⟨hanswer.out.trans (Transcript.out_append _ _), hanswer.ending, htwin, ?_⟩
  -- below enough empty lines, the tokens of the second text are told from all others by their lines
  obtain ⟨n, hn⟩ := exists_lines_lt earlier
  let others := (first.2.run { o with budget := m + 1 } (below n b)).1.transcript.errors
  have hfirst : first.2 = ofTexts (texts ++ [(o, a)]) := (ofTexts_append texts o a).symm
  have hbelow : ∀ k, (first.2.run { o with budget := m + 1 } (below k b)).1.transcript.errors =
      others.map fun e => ⟨e.cause, e.token.onto n k⟩ := by
    intro k
    simp only [others, hfirst]
    refine errors_below hb (fun x hx => hn x.2 ?_) _ k
    rcases List.mem_append.1 hx with hx | hx
    · exact .tail _ (List.mem_map_of_mem hx)
    · rw [List.mem_singleton.1 hx]
      exact .head _
  have hsecond : second.1.transcript.errors =
      others.map fun e => ⟨e.cause, e.token.onto n 0⟩ := by
    have hzero := hbelow 0
    rwa [below_zero] at hzero
  have hwhole : whole.1.transcript.errors =
      others.map fun e => ⟨e.cause, e.token.onto n (lines a)⟩ := by
    obtain ⟨hmoved, -⟩ := run_before (T := fun t t' => t' = t.onto n (lines a))
      (fun h => by rw [h, Token.lexeme_onto]) (fun h => by rw [h, Token.kind_onto]) ha hb
      (problems_below hb n) hjoined (fun x hx t ht => (Token.onto_of_lt (hn x hx t ht) _).symm)
      (forall₂_below hparseB n (lines a)) hend m
    have herrors := errors_eq_map hmoved.errors
    rwa [Transcript.errors_append, errors_of_completed hend, List.nil_append] at herrors
  have hothers : others.length ≤ 1 := by
    simp only [others, length_errors_run]
    split <;> decide
  have hmoves := map_onto hothers n
  generalize others.all (n ≤ ·.token.line) = moves at hmoves
  refine ⟨moves, ?_, fun k => ?_, fun e he => ?_⟩
  · rw [hwhole, hmoves, hsecond]
  · rw [hbelow, hmoves, hsecond]
  · have herrors := hanswer.errors
    rw [Transcript.errors_append, errors_of_completed hend, List.nil_append, hwhole, hmoves,
      ← hsecond, List.forall₂_map_right_iff, List.forall₂_same] at herrors
    exact Token.Moved.mem (Nat.succ_pos _) moves (herrors e he).2

/-- After a text with a function, a text that calls it and another that calls it and fails on its
second line, or both as one text, which fails on its fourth line. -/
theorem run_joined_error :
    let s := ofTexts [(.still, "fun f(x) { print x; }")]
    let a := "var a = 1;\nf(a);"
    let b := "f(a + 1);\na.b;"
    problems a = [] ∧ problems b = [] ∧ (s.run .still a).1.ending = .completed ∧ ∃ n,
      let whole := s.run { Options.still with budget := n + 100 } (a ++ "\n" ++ b)
      whole.1.transcript.out = "1\n2\n" ∧
        whole.1.transcript.errors.map (·.text) = ["Only instances have properties. (line 4)"] := by
  intro s a b
  have ha : problems a = [] := by decide +kernel
  have hb : problems b = [] := by decide +kernel
  have hend : (s.run .still a).1.ending = .completed := by decide +kernel
  obtain ⟨-, -, hrun⟩ := run_joined [(.still, "fun f(x) { print x; }")] .still ha hb
  obtain ⟨n, hn⟩ := hrun hend
  obtain ⟨hout, -, -, moves, herrors, -, hmem⟩ := hn 99
  refine ⟨ha, hb, hend, n, hout.trans (by decide +kernel), ?_⟩
  rw [herrors]
  cases moves with
  | true => decide +kernel
  | false =>
    -- the error is at a token of the second text only
    have hnot : ∃ e ∈ ((s.run .still a).2.run { Options.still with budget := 99 + 1 }
        b).1.transcript.errors, ∀ x ∈ a :: ["fun f(x) { print x; }"],
          e.token ∉ (scan x).tokens := by
      decide +kernel
    obtain ⟨e, he, hnot⟩ := hnot
    obtain ⟨x, hx, hmem⟩ := hmem e he
    exact absurd hmem (hnot x hx)

end Session

end Lox
