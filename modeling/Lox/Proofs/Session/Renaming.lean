import Lox.Proofs.Grammar.Tokens
import Lox.Proofs.Machine.Renaming
import Lox.Proofs.Scan.Renaming
import Lox.Proofs.Scope.Renaming
import Lox.Proofs.Session.Joined

/-!
# Running a text with another name for a local variable

A local variable may be called anything. If the declaration of a variable and all reads and
assignments that are bound to it are given a name that is new in the text, the text is resolved to
the same distances, and it runs as before.

## Main definitions

* `resolved`: what a text is resolved to in a new session
* `Likeness.respelled`: trees in which some variables have another name

## Main results

* `renamable`: a local variable of a text and a name that is new in the text
* `Session.run_renamed`: a text and the same text with another name for a local variable
-/

namespace Lox

open Lox.Part (tokens)

/-- What a text is resolved to in a new session. -/
def resolved (source : String) : Resolved := Resolved.ofProgram 0 (parse source).statements

/-- Trees that differ in the names of some variables only. -/
def Likeness.respelled (names : List Token) (z : String) : Likeness Unit Unit where
  token t t' := t ∉ names ∧ t.Respelled names z t'
  name := Token.Respelled names z
  mark _ _ := True

theorem Part.map_erase_unit (xs : List (Part Unit)) : xs.map erase = xs := by
  refine List.map_id'' (fun x => ?_) xs
  cases x <;> rfl

/-! ## Local variables of texts -/

section Variables

variable {source z : String} {t u : Token} {names : List Token}

/-- The parts of a resolved text are those of its statements but for the marks. -/
theorem parts_resolved (source : String) : (Stmt.partsAll (resolved source).body).map Part.erase =
    Stmt.partsAll (parse source).statements :=
  (Stmt.erase_numberAll 0 _).trans (Part.map_erase_unit _)

theorem tokens_resolved (source : String) : tokens (Stmt.partsAll (resolved source).body) =
    tokens (Stmt.partsAll (parse source).statements) := by
  rw [← Part.tokens_map_erase, parts_resolved]

/-- A local variable of a text and a name that is new in the text. -/
theorem renamable (h : problems source = []) (ht : t ∈ localVariables (resolved source).body)
    (hz : isIdentifier z) (hnew : ∀ u ∈ (scan source).tokens, u.lexeme ≠ z) :
    Renamable (Session.fresh.locals.record (resolved source)) (resolved source).body t z := by
  obtain ⟨hparse, hresolve⟩ := problems_eq_nil.1 h
  have hdrawn := drawn_parse hparse
  refine ⟨surveyed_visited (Locals.records_record (genuineAll_parse hparse) hresolve), ?_, ht, ?_,
    ne_text_of_isIdentifier hz⟩
  · rw [tokens_resolved]
    exact hdrawn.nodup (nodup_tokens source)
  · intro u hu
    rw [tokens_resolved] at hu
    exact hnew u (hdrawn.mem hu)

/-- What mentions a local variable is the name of a variable in the text. -/
theorem name_mem_of_mentions_resolved (ht : t ∈ localVariables (resolved source).body)
    (hu : u ∈ mentions (resolved source).body t) :
    .name u ∈ Stmt.partsAll (parse source).statements := by
  rw [← parts_resolved]
  exact Part.name_mem_map_erase (name_mem_of_mentions ht hu)

/-- A text with another name for some of its variables is parsed to trees that differ in these
names only. -/
theorem parse_renamed (h : (parse source).reports = []) (hz : isIdentifier z)
    (hnames : ∀ u ∈ names, .name u ∈ Stmt.partsAll (parse source).statements) :
    List.Forall₂ (Token.Respelled names z) (scan source).tokens
        (scan (renamed names z source)).tokens ∧
      (parse (renamed names z source)).reports = [] ∧
      List.Forall₂ (Stmt.Twin (.respelled names z)) (parse source).statements
        (parse (renamed names z source)).statements := by
  have hdrawn := drawn_parse h
  obtain ⟨hscan, htokens⟩ := scan_renamed (scan_of_parse h) hz
    fun u hu => hdrawn.identifier u (hnames u hu)
  obtain ⟨hreports, htwins⟩ := twin_parse (·.kind) h hscan htokens
  refine ⟨htokens, hreports, Stmt.Twin.impAll _ htwins fun x hx => ?_⟩
  cases x with
  | name => exact fun _ h => h
  | mark => exact fun _ _ => trivial
  | token u =>
    -- no token is the name of a variable and something else as well
    refine fun _ h => ⟨fun hu => ?_, h⟩
    cases Part.eq_of_token (hdrawn.nodup (nodup_tokens source)) hx (hnames u hu) rfl rfl

theorem spells_respelled (body : List (Stmt Occurrence)) (t : Token) (z : String) :
    (Likeness.respelled (mentions body t) z).Spells (Renaming.ofLocal body t z).text where
  token h := by rw [h.2.lexeme, if_neg h.1]
  name h := h.lexeme

end Variables

/-! ## Recording and running -/

namespace Session

section Twins

variable {source source' : String} {κ : Renaming} {L : Likeness Unit Unit} (hκ : κ.Lawful)
  (hL : L.Spells κ.text) (hsuits : ∀ p, Visited (resolved source).body p → p.Suits κ)
  (hbody : List.Forall₂ (Stmt.Twin L) (parse source).statements (parse source').statements)

include hκ hL hsuits hbody

/-- Under other names a text is resolved to the same distances, and nothing is reported if nothing
was. -/
theorem resolved_renamed :
    (resolved source').next = (resolved source).next ∧
      (resolved source').entries = (resolved source).entries ∧
      ((resolved source).reports = [] → (resolved source').reports = []) := by
  obtain ⟨-, hnext, hfindings⟩ := Resolved.twin_ofProgram hκ hL 0 0 hbody
    fun p hp => hsuits p (visited_iff_reaches.2 hp)
  refine ⟨hnext.symm, ?_, hfindings.reports_eq_nil.2⟩
  refine (List.forall₂_eq_eq_eq ▸ hfindings.entries.imp fun x y h => ?_ : _ = _).symm
  exact Prod.ext (show x.1 = y.1 from h.1) h.2

/-- Under other names a text runs as before. -/
theorem outcome_renamed (h : problems source = []) (o : Options) :
    let l := fresh.locals.record (resolved source)
    let l' := fresh.locals.record (resolved source')
    let origins := [.globals] ++
      (fresh.launch (resolved source)).openedWithin (fresh.setupFor o (resolved source)) o.budget
    (fresh.outcome o (resolved source)).Twin (κ.pairing (Resolved.likeness L l l') origins)
      (fresh.outcome o (resolved source')) := by
  intro l l' origins
  have hr := accepted?_of_problems h fresh
  have hvalid := History.valid_fresh
  have hcode := Resolved.twin_record hκ hL fresh.locals fresh.locals hbody
    fun p hp => hsuits p (visited_iff_reaches.2 hp)
  have hspells : (Resolved.likeness L l l').Spells κ.text := ⟨hL.token, hL.name⟩
  have hsetup : (fresh.setupFor o (resolved source)).Twin
      (κ.pairing (Resolved.likeness L l l') origins) (fresh.setupFor o (resolved source')) :=
    ⟨rfl, rfl, rfl, fun h => h.distance?⟩
  have hlaunch : (fresh.launch (resolved source)).Twin
      (κ.pairing (Resolved.likeness L l l') origins) [] (fresh.launch (resolved source')) :=
    Config.twin_ofProgram ⟨rfl, Store.twin_fresh rfl, rfl, rfl, rfl⟩ hcode
  refine Config.twin_renamed (hvalid.fits (resolved source)) (hvalid.surveyed hr o) hκ
    (fun p ⟨body, hmem, hp⟩ => ?_) hspells hsetup hlaunch []
  obtain rfl := List.mem_singleton.1 hmem
  exact hsuits p hp

end Twins

/-- A local variable may be called anything. If nothing is reported of a text, then a variable that
it declares in an open scope, or a parameter, may be given a name that is new in the text, along
with the reads and assignments that are bound to it. The tokens of the text stay the same but for these
and for their columns, nothing is reported of the other text either, and in a new session it is
resolved to the same distances. It prints the same and ends in the same way, and if it fails, then
with the same error on the same line. -/
theorem run_renamed {source z : String} {t : Token} (h : problems source = [])
    (ht : t ∈ localVariables (resolved source).body) (hz : isIdentifier z)
    (hnew : ∀ u ∈ (scan source).tokens, u.lexeme ≠ z) :
    let names := mentions (resolved source).body t
    let source' := renamed names z source
    List.Forall₂ (Token.Respelled names z) (scan source).tokens (scan source').tokens ∧
      problems source' = [] ∧
      ∀ o, (fresh.run o source').2.locals = (fresh.run o source).2.locals ∧
        (fresh.run o source).1.Twin (Token.Respelled names z) (fresh.run o source').1 := by
  intro names source'
  have hrenamable := renamable h ht hz hnew
  have hκ := hrenamable.lawful
  have hL := spells_respelled (resolved source).body t z
  have hsuits := fun p (hp : Visited (resolved source).body p) => hrenamable.suits hp
  obtain ⟨hparse, hresolve⟩ := problems_eq_nil.1 h
  obtain ⟨htokens, hparse', hbody⟩ :=
    parse_renamed hparse hz fun u hu => name_mem_of_mentions_resolved ht hu
  obtain ⟨hnext, hentries, hreports⟩ := resolved_renamed hκ hL hsuits hbody
  have hproblems' : problems source' = [] := problems_eq_nil.2 ⟨hparse', hreports hresolve⟩
  have hr := accepted?_of_problems h fresh
  have hr' := accepted?_of_problems hproblems' fresh
  refine ⟨htokens, hproblems', fun o => ⟨?_, ?_⟩⟩
  · rw [run_of_accepted hr o, run_of_accepted hr' o]
    show fresh.locals.record (resolved source') = fresh.locals.record (resolved source)
    rw [Locals.record, Locals.record, hnext, hentries]
  · refine answer_of_outcome hr hr' (outcome_renamed hκ hL hsuits hbody h o)
      (fun _ _ hT => hT.elim (·.2) id) fun _ _ hmissing => ?_
    have hvalid := History.valid_fresh
    have hlegal := (Config.fits_run (hvalid.fits _) (hvalid.surveyed hr o) o.budget []).2
    exact absurd rfl (hlegal _ hmissing _)

/-- Another name for a variable that a function closes over. The variable of the same name in the
inner block keeps its name, and the run fails at it as before. -/
theorem run_renamed_shadowed :
    let source := "{var a=1;fun f(){return a;}{var a=2;print f()+a;a.b;}}"
    let other := "{var c=1;fun f(){return c;}{var a=2;print f()+a;a.b;}}"
    let t : Token := ⟨.identifier, "a", 1, 6⟩
    problems source = [] ∧ t ∈ localVariables (resolved source).body ∧ isIdentifier "c" ∧
      (∀ u ∈ (scan source).tokens, u.lexeme ≠ "c") ∧
      renamed (mentions (resolved source).body t) "c" source = other ∧
      problems other = [] ∧ (fresh.run .still other).1.transcript.out = "3\n" ∧
      (fresh.run .still other).1.transcript.errors.map (fun e => (e.message, e.token.line)) =
        [("Only instances have properties.", 1)] := by
  intro source other t
  have hproblems : problems source = [] := by decide +kernel
  have ht : t ∈ localVariables (resolved source).body := by decide +kernel
  have hz : isIdentifier "c" := by decide +kernel
  have hnew : ∀ u ∈ (scan source).tokens, u.lexeme ≠ "c" := by decide +kernel
  have hother : renamed (mentions (resolved source).body t) "c" source = other := by
    decide +kernel
  obtain ⟨-, hproblems', hrun⟩ := run_renamed hproblems ht hz hnew
  obtain ⟨-, htwin⟩ := hrun .still
  rw [hother] at hproblems' htwin
  refine ⟨hproblems, ht, hz, hnew, hother, hproblems', ?_, ?_⟩
  · exact htwin.out.trans (by decide +kernel)
  · have herrors : (fresh.run .still source).1.transcript.errors.map
        (fun e => (e.message, e.token.line)) = [("Only instances have properties.", 1)] := by
      decide +kernel
    rw [← herrors, ← List.forall₂_eq_eq_eq]
    refine List.forall₂_map_left_iff.2 (List.forall₂_map_right_iff.2 (htwin.errors.flip.imp ?_))
    exact fun e e' h => Prod.ext (congrArg ErrorCause.message h.1) h.2.line

end Session

end Lox
