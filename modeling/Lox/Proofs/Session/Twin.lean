import Lox.Proofs.Machine.Twin
import Lox.Proofs.Parser.Twin
import Lox.Proofs.Session.Safety

/-!
# Twin sessions

Two sessions are twins if they hold the same objects up to the tokens of the code and up to the
numbers of its references, which have the same distances in both. What else was recorded in
either of them makes no difference. A text that is run in both, or twin texts that are, lead to
twin runs and to twin sessions.

## Main definitions

* `Session.pairing`: how the code of two sessions corresponds
* `Session.Twin`: twin sessions

## Main results

* `Session.Twin.outcome`: twin texts in twin sessions
* `Session.Twin.next`: one text in twin sessions
* `Session.Twin.run_eq`: one text in sessions whose code has the same tokens
-/

namespace Lox

/-- The objects of a new session are the same if the globals keep their names. -/
theorem Store.twin_fresh {P : Pairing} (h : P.rename Store.globals = id) :
    Store.fresh.Twin P Store.fresh where
  environments e := by
    obtain ⟨i⟩ := e
    cases i with
    | zero =>
      have hglobals : P.rename ⟨0⟩ = id := h
      simp [hglobals]
    | succ i => rfl
  size := rfl
  functions := .nil
  classes := rfl
  instances := rfl

namespace Session

/-- Code whose tokens correspond and whose references have the same distances. -/
def pairing (T : Token → Token → Prop) (l l' : Locals) : Pairing :=
  .keep (Resolved.likeness (.tokens T) l l')

/-- The same objects, up to the tokens of code and the numbers of references. -/
structure Twin (T : Token → Token → Prop) (s s' : Session) : Prop where
  store : s.store.Twin (pairing T s.locals s'.locals) s'.store
  readings : s'.readings = s.readings
  operations : s'.operations = s.operations

variable {T : Token → Token → Prop} {s s' : Session} {source : String} {o : Options}

theorem twin_fresh (T : Token → Token → Prop) : fresh.Twin T fresh where
  store := Store.twin_fresh rfl
  readings := rfl
  operations := rfl

/-- A text keeps the distances of earlier occurrences. -/
theorem extends_recorded (s : Session) (source : String) :
    s.locals.Extends (s.recorded source) := by
  unfold recorded
  split
  · exact s.locals.extends_record _
  · exact ⟨Nat.le_refl _, fun _ _ => rfl⟩

namespace Twin

/-! ## Recording -/

/-- What is recorded on one side only makes no difference. -/
theorem extend_left (h : s.Twin T s') {l : Locals} (hl : s.locals.Extends l) :
    Twin T { s with locals := l } s' where
  store := h.store.imp fun x => by
    cases x with
    | token | name => exact fun _ h => h
    | mark => exact fun _ h => h.extend_left hl
  readings := h.readings
  operations := h.operations

theorem extend_right (h : s.Twin T s') {l : Locals} (hl : s'.locals.Extends l) :
    Twin T s { s' with locals := l } where
  store := h.store.imp fun x => by
    cases x with
    | token | name => exact fun _ h => h
    | mark => exact fun _ h => h.extend_right hl
  readings := h.readings
  operations := h.operations

/-! ## Running twins -/

theorem spells (hT : ∀ {t t'}, T t t' → t'.lexeme = t.lexeme) :
    (Likeness.tokens T).Spells Token.lexeme := ⟨hT, hT⟩

theorem lawful (hT : ∀ {t t'}, T t t' → t'.lexeme = t.lexeme) (l l' : Locals) :
    (pairing T l l').Lawful := Pairing.lawful_keep ⟨hT, hT⟩

variable {body body' : List (Stmt Unit)}

/-- What is found in twins corresponds. -/
theorem findings (hT : ∀ {t t'}, T t t' → t'.lexeme = t.lexeme)
    (hbody : List.Forall₂ (Stmt.Twin (.tokens T)) body body') (n m : Nat) :
    Findings ((Likeness.tokens T).numbered n m) (Resolved.ofProgram n body).findings
      (Resolved.ofProgram m body').findings :=
  (Resolved.twin_ofProgram Renaming.lawful_keep (spells hT) n m hbody
    fun _ _ => Site.suits_keep _).2.2

/-- Twins that are recorded in twin sessions, ready to run. -/
theorem launch (hT : ∀ {t t'}, T t t' → t'.lexeme = t.lexeme) (h : s.Twin T s')
    (hbody : List.Forall₂ (Stmt.Twin (.tokens T)) body body') :
    let r := Resolved.ofProgram s.locals.next body
    let r' := Resolved.ofProgram s'.locals.next body'
    (s.launch r).Twin (pairing T (s.locals.record r) (s'.locals.record r')) [] (s'.launch r') := by
  intro r r'
  have hcode := Resolved.twin_record Renaming.lawful_keep (spells hT) s.locals s'.locals hbody
    fun _ _ => Site.suits_keep _
  have hstore := ((h.extend_left (s.locals.extends_record body)).extend_right
    (s'.locals.extends_record body')).store
  exact Config.twin_ofProgram ⟨rfl, hstore, rfl, h.readings, h.operations⟩ hcode

/-- The setups of runs in twin sessions. -/
theorem setup (o : Options) (l l' : Locals) :
    Setup.Twin (pairing T l l') (Session.setup o l) (Session.setup o l') :=
  ⟨rfl, rfl, rfl, fun h => h.distance?⟩

/-- Runs of twins in twin sessions are twins. -/
theorem outcome (hT : ∀ {t t'}, T t t' → t'.lexeme = t.lexeme) (h : s.Twin T s')
    (hbody : List.Forall₂ (Stmt.Twin (.tokens T)) body body') (o : Options) :
    let r := Resolved.ofProgram s.locals.next body
    let r' := Resolved.ofProgram s'.locals.next body'
    (s.outcome o r).Twin (pairing T (s.locals.record r) (s'.locals.record r'))
      (s'.outcome o r') :=
  Config.twin_runFrom (lawful hT _ _) (setup o _ _) (launch hT h hbody)
    (fun _ _ _ _ => Config.suits_keep _ _ _) []

/-! ## Running the same text -/

/-- A text whose tokens correspond to themselves is parsed to what corresponds to itself. -/
theorem parse_self (hself : ∀ t ∈ (scan source).tokens, T t t)
    (hparse : (parse source).reports = []) :
    List.Forall₂ (Stmt.Twin (.tokens T)) (parse source).statements (parse source).statements := by
  -- tokens that are the same have the same kind, whatever else corresponds
  obtain ⟨-, hsame⟩ := twin_parse (R := fun t t' => t' = t ∧ T t t) (fun h => by rw [h.1]) hparse
    (scan_of_parse hparse) (List.forall₂_same.2 fun t ht => ⟨rfl, hself t ht⟩)
  refine Stmt.Twin.impAll _ hsame fun x _ => ?_
  cases x with
  | token t | name t =>
    rintro t' ⟨rfl, h⟩
    exact h
  | mark => exact fun _ _ => trivial

/-- A text is run in both of two twin sessions or in neither. -/
theorem accepted? (hT : ∀ {t t'}, T t t' → t'.lexeme = t.lexeme) (s s' : Session)
    (hself : ∀ t ∈ (scan source).tokens, T t t) {r : Resolved}
    (hr : s.accepted? source = some r) :
    ∃ r', s'.accepted? source = some r' := by
  obtain ⟨hparse, rfl, hreports⟩ := accepted?_eq_some hr
  have hfindings := findings hT (parse_self hself hparse) s.locals.next s'.locals.next
  have hreports' := hfindings.reports_eq_nil.2 hreports
  refine ⟨Resolved.ofProgram s'.locals.next (parse source).statements, ?_⟩
  simp [Session.accepted?, hparse, Resolved.reports, hreports']

/-- Running one text leads to twin sessions. -/
theorem next (hT : ∀ {t t'}, T t t' → t'.lexeme = t.lexeme) (h : s.Twin T s') (o : Options)
    (hself : ∀ t ∈ (scan source).tokens, T t t) :
    (s.run o source).2.Twin T (s'.run o source).2 := by
  cases hr : s.accepted? source with
  | none =>
    have hr' : s'.accepted? source = none := by
      refine Option.eq_none_iff_forall_ne_some.2 fun r' hr' => ?_
      obtain ⟨r, hr''⟩ := accepted? hT s' s hself hr'
      simp [hr] at hr''
    obtain ⟨_, hrun, -⟩ := run_of_rejected hr o
    obtain ⟨_, hrun', -⟩ := run_of_rejected hr' o
    rw [hrun, hrun']
    exact (h.extend_left (s.extends_recorded source)).extend_right (s'.extends_recorded source)
  | some r =>
    obtain ⟨r', hr'⟩ := accepted? hT s s' hself hr
    rw [run_of_accepted hr o, run_of_accepted hr' o]
    obtain ⟨hparse, rfl, -⟩ := accepted?_eq_some hr
    obtain ⟨-, rfl, -⟩ := accepted?_eq_some hr'
    have houtcome := h.outcome hT (parse_self hself hparse) o
    exact ⟨houtcome.state.store, houtcome.state.readings, houtcome.state.operations⟩

end Twin

/-- Every session after some texts is its own twin, if their tokens correspond to themselves. -/
theorem twin_ofTexts (texts : List (Options × String))
    (hT : ∀ {t t'}, T t t' → t'.lexeme = t.lexeme)
    (hself : ∀ x ∈ texts, ∀ t ∈ (scan x.2).tokens, T t t) :
    (ofTexts texts).Twin T (ofTexts texts) := by
  have hfold : ∀ s s' : Session, s.Twin T s' →
      (texts.foldl (fun s x => (s.run x.1 x.2).2) s).Twin T
        (texts.foldl (fun s x => (s.run x.1 x.2).2) s') := by
    induction texts with
    | nil => exact fun _ _ h => h
    | cons x rest ih =>
      intro s s' h
      exact ih (fun y hy => hself y (by simp [hy])) _ _ (h.next hT x.1 (hself x (by simp)))
  exact hfold _ _ (twin_fresh T)

/-! ## Sessions whose code has the same tokens -/

theorem findingEvent_eq {L : Likeness Occurrence Occurrence}
    (hL : ∀ t t', L.either t t' → t' = t) {fs fs' : List (Finding Occurrence)}
    (h : Findings L fs fs') : fs'.map findingEvent = fs.map findingEvent := by
  induction h with
  | nil => rfl
  | cons h _ ih =>
    rw [List.map_cons, List.map_cons, ih]
    cases h with
    | resolved label h d => simp only [findingEvent, hL _ _ h.token]
    | misuse h e => rw [hL _ _ h]

/-- What is seen of resolving a program does not depend on the number it is numbered from. -/
theorem events_ofProgram {body : List (Stmt Unit)}
    (h : List.Forall₂ (Stmt.Twin (.tokens Eq)) body body) (n m : Nat) :
    (Resolved.ofProgram m body).findings.map findingEvent =
      (Resolved.ofProgram n body).findings.map findingEvent :=
  findingEvent_eq (fun _ _ h => by rcases h with h | h <;> exact h.symm)
    (Twin.findings (T := Eq) (fun h => by rw [h]) h n m)

theorem halt_eq {l l' : Locals} {x x' : Option Halt}
    (h : Option.Rel (Halt.Twin (pairing Eq l l')) x x') : x' = x := by
  cases h with
  | none => rfl
  | some h =>
    cases h with
    | finished | value => rfl
    | aborted h =>
      cases h with
      | error ht => rcases ht with rfl | rfl <;> rfl
      | fault | missing | stackOverflow => rfl

/-- What is answered to a text in which the resolver alone finds a problem. -/
theorem answer_of_misuses (hparse : (parse source).reports = [])
    (h : (Resolved.ofProgram s.locals.next (parse source).statements).reports ≠ []) :
    (s.run o source).1 =
      ⟨acceptedEvents (parse source) (Resolved.ofProgram s.locals.next (parse source).statements) ++
        [.logged .scopeRejected], .rejected⟩ := by
  simp [run, runParsed, hparse, h, acceptedEvents]

namespace Twin

/-- Sessions whose code has the same tokens answer every text in the same way. -/
theorem run_eq (h : s.Twin Eq s') (o : Options) (source : String) :
    (s'.run o source).1 = (s.run o source).1 := by
  by_cases hparse : (parse source).reports = []
  · have hbody := parse_self (T := Eq) (fun _ _ => rfl) hparse
    have hfindings := findings (T := Eq) (fun h => by rw [h]) hbody s.locals.next s'.locals.next
    have hevents := events_ofProgram hbody s.locals.next s'.locals.next
    have haccepted : ∀ r r' : Resolved, r'.findings.map findingEvent = r.findings.map findingEvent →
        acceptedEvents (parse source) r' = acceptedEvents (parse source) r := by
      intro r r' heq
      rw [acceptedEvents, heq, acceptedEvents]
    by_cases hreports : (Resolved.ofProgram s.locals.next (parse source).statements).reports = []
    · have hreports' := hfindings.reports_eq_nil.2 hreports
      have hr : s.accepted? source =
          some (Resolved.ofProgram s.locals.next (parse source).statements) := by
        simp [Session.accepted?, hparse, hreports]
      have hr' : s'.accepted? source =
          some (Resolved.ofProgram s'.locals.next (parse source).statements) := by
        simp [Session.accepted?, hparse, Resolved.reports, hreports']
      have houtcome := h.outcome (fun h => by rw [h]) hbody o
      rw [run_of_accepted hr o, run_of_accepted hr' o, haccepted _ _ hevents,
        halt_eq houtcome.halt, Run.transcript, houtcome.recent, Run.transcript]
    · have hreports' := mt hfindings.reports_eq_nil.1 hreports
      rw [answer_of_misuses hparse hreports, answer_of_misuses hparse hreports',
        haccepted _ _ hevents]
  · rw [run_of_reports hparse, run_of_reports hparse]

/-- The same on a host whose stack may be exhausted. -/
theorem attempt_eq (h : s.Twin Eq s') (o : Options) (source : String) :
    (s'.attempt o source).1 = (s.attempt o source).1 := by
  cases hcut : o.host.cut? source with
  | none => rw [attempt_of_lasting hcut, attempt_of_lasting hcut, h.run_eq]
  | some cut =>
    cases cut with
    | parsing n => rw [attempt_of_parsing hcut, attempt_of_parsing hcut]
    | resolving n =>
      have hself := parse_self (T := Eq) (fun _ _ => rfl) (Host.reports_of_resolving hcut)
      rw [attempt_of_resolving hcut, attempt_of_resolving hcut, List.map_take, List.map_take,
        events_ofProgram hself s.locals.next s'.locals.next]

/-- A text leads to twin sessions, also where it exhausts the stack. -/
theorem next_attempt (h : s.Twin Eq s') (o : Options) (source : String) :
    (s.attempt o source).2.Twin Eq (s'.attempt o source).2 := by
  cases hcut : o.host.cut? source with
  | none =>
    rw [attempt_of_lasting hcut, attempt_of_lasting hcut]
    exact h.next (fun h => by rw [h]) o fun _ _ => rfl
  | some cut =>
    cases cut with
    | parsing n =>
      rw [attempt_of_parsing hcut, attempt_of_parsing hcut]
      exact h
    | resolving n =>
      rw [attempt_of_resolving hcut, attempt_of_resolving hcut]
      exact (h.extend_left (s.locals.extends_record_upTo _ n)).extend_right
        (s'.locals.extends_record_upTo _ n)

end Twin

end Session

end Lox
