import Lox.Proofs.Scope.Mentions
import Lox.Proofs.Scope.Twin
import Mathlib.Logic.Equiv.Basic

/-!
# Renaming a local variable

If a local variable of a program of which nothing is reported is given a name that is new in the
program, where it is declared and where it is mentioned, then all names still mean what they
meant. In the scope of the declaration the old name and the new one change places; the new one is
in no scope, so what is looked up under it goes past all the scopes that the old one went past, and
no other variable of the scope has the old one.

## Main definitions

* `Renaming.ofLocal`: another name for a local variable
* `Renamable`: a local variable, and a name that is new in its program

## Main results

* `Renaming.meets_ofLocal`: what a name means in the renamed scopes
* `Renamable.suits`: the names at the sites of the program are those that the renamed scopes give
-/

namespace Lox

open Lox.Part (tokens)

namespace Renaming

variable {body : List (Stmt Occurrence)} {t : Token} {z m n : String} {o : Opener}

/-- Another name for a local variable of a program: in the scope of the declaration the two names
change places. -/
def ofLocal (body : List (Stmt Occurrence)) (t : Token) (z : String) : Renaming where
  scope o := if t ∈ o.declarations then Equiv.swap t.lexeme z else id
  text u := if u ∈ mentions body t then z else u.lexeme

theorem scope_of_mem (h : t ∈ o.declarations) : (ofLocal body t z).scope o t.lexeme = z := by
  simp only [ofLocal, if_pos h, Equiv.swap_apply_left]

/-- Every other name stays as it is. -/
theorem scope_of_ne (h : t ∈ o.declarations → n ≠ t.lexeme) (hz : n ≠ z) :
    (ofLocal body t z).scope o n = n := by
  unfold ofLocal
  by_cases ht : t ∈ o.declarations
  · simp only [if_pos ht]
    exact Equiv.swap_apply_of_ne_of_ne (h ht) hz
  · simp only [if_neg ht, id]

theorem lawful_ofLocal (ht : ∀ k : Keyword, t.lexeme ≠ k.text) (hz : ∀ k : Keyword, z ≠ k.text) :
    (ofLocal body t z).Lawful where
  injective o := by
    unfold ofLocal
    by_cases h : t ∈ o.declarations
    · simp only [if_pos h]
      exact (Equiv.swap t.lexeme z).injective
    · simp only [if_neg h]
      exact Function.injective_id
  word o k := scope_of_ne (fun _ => (ht k).symm) (hz k).symm

/-- What a name means in scopes with names that their openers declare, none of which is the new
one: the variable, if its declaration is in the first scope with the name. -/
theorem meets_ofLocal {scopes : List Scope} {os : List Opener}
    (hnames : List.Forall₂ (fun scope o => ∀ n, scope.has n → n ∈ o.names) scopes os)
    (hz : ∀ o ∈ os, z ∉ o.names) (hm : m ≠ z) :
    (ofLocal body t z).Meets m
      (if m = t.lexeme ∧ ((scopes.findIdx? (·.has m)).bind (os[·]?)).any (t ∈ ·.declarations)
        then z else m) os scopes := by
  induction hnames with
  | nil => simp [Meets]
  | @cons scope o scopes os hscope _ ih =>
    obtain ⟨hfirst, hrest⟩ := List.forall_mem_cons.1 hz
    rw [List.findIdx?_cons, Meets]
    by_cases hhas : scope.has m
    · rw [if_pos hhas, if_pos hhas]
      by_cases hvariable : m = t.lexeme ∧ t ∈ o.declarations
      · obtain ⟨rfl, ht⟩ := hvariable
        simp [ht, scope_of_mem ht]
      · rw [scope_of_ne (fun ht hmt => hvariable ⟨hmt, ht⟩) hm]
        simpa using fun hmt ht => absurd ⟨hmt, ht⟩ hvariable
    · rw [if_neg hhas, if_neg hhas]
      have hshift : ((scopes.findIdx? (·.has m)).map (· + 1)).bind ((o :: os)[·]?) =
          (scopes.findIdx? (·.has m)).bind (os[·]?) := by
        cases scopes.findIdx? (·.has m) <;> simp
      rw [hshift]
      refine ⟨fun n hn hin => ?_, ih hrest⟩
      -- a name of this scope that became the same would be the one that is looked up
      have hnz : n ≠ z := fun h => hfirst (h ▸ hscope n hin)
      have hnm : n ≠ m := fun h => hhas (h ▸ hin)
      by_cases hvariable : n = t.lexeme ∧ t ∈ o.declarations
      · obtain ⟨rfl, ht⟩ := hvariable
        rw [scope_of_mem ht] at hn
        split at hn
        · next h => exact hnm h.1.symm
        · exact hm hn.symm
      · rw [scope_of_ne (fun ht hnt => hvariable ⟨hnt, ht⟩) hnz] at hn
        split at hn
        · exact hnz hn
        · exact hnm hn

end Renaming

/-- A local variable of a program of which nothing is reported, and a name that is new in it. -/
structure Renamable (l : Locals) (body : List (Stmt Occurrence)) (t : Token) (z : String) :
    Prop where
  /-- The distances of the program are recorded. -/
  surveyed : Surveyed l (Visited body)
  /-- No token occurs twice. -/
  nodup : (tokens (Stmt.partsAll body)).Nodup
  /-- The variable is local. -/
  mem : t ∈ localVariables body
  /-- The name is that of no token, -/
  fresh : ∀ u ∈ tokens (Stmt.partsAll body), u.lexeme ≠ z
  /-- and no reserved word. -/
  word : ∀ k : Keyword, z ≠ k.text

namespace Renamable

variable {l : Locals} {body : List (Stmt Occurrence)} {t u : Token} {z : String} {p : Site}
  {o : Opener}

theorem lexeme_ne (h : Renamable l body t z) (hp : Visited body p) {x : Part Occurrence}
    (hx : x ∈ p.ownParts) (hu : x.token? = some u) : u.lexeme ≠ z :=
  h.fresh u (Part.mem_tokens (hp.mem_parts hx) hu)

/-- The new name is declared in no scope. -/
theorem not_mem_names (h : Renamable l body t z) (hp : Visited body p) (ho : o ∈ p.openers) :
    z ∉ o.names := by
  intro hz
  rcases Opener.exists_of_mem_names hz with ⟨u, hu, hlexeme⟩ | ⟨k, hk⟩
  · exact h.fresh u (hp.mem_tokens_of_declarations h.surveyed ho hu) hlexeme
  · exact h.word k hk

/-- The variable has the name of no reserved word. -/
theorem isName (h : Renamable l body t z) : t.IsName := by
  obtain ⟨⟨c, os, node⟩, hp, hlocal⟩ := mem_localVariables.1 h.mem
  have hgenuine := (h.surveyed.settled hp).genuine
  simp only [Site.locals] at hlocal
  split at hlocal
  · split at hlocal
    · cases hlocal
    · rw [List.mem_singleton.1 hlocal]
      exact hgenuine.1
  · exact Stmt.GenuineFunction.params hgenuine t hlocal
  · cases hlocal

theorem lawful (h : Renamable l body t z) : (Renaming.ofLocal body t z).Lawful :=
  Renaming.lawful_ofLocal h.isName.ne_text h.word

/-- A token that is no name of a variable is not the declaration. -/
theorem ne_of_token (h : Renamable l body t z) (hp : Visited body p)
    (hu : .token u ∈ p.ownParts) : t ≠ u := by
  obtain ⟨q, hq, hlocal⟩ := mem_localVariables.1 h.mem
  exact hq.name_ne_token h.nodup hp (Site.name_mem_of_locals hlocal) hu

/-- In a scope that declares another token, the name of that token stays as it is. -/
theorem scope_of_declaration (h : Renamable l body t z) (hp : Visited body p) (ho : o ∈ p.openers)
    (hu : u ∈ o.declarations) (hne : t ≠ u) :
    (Renaming.ofLocal body t z).scope o u.lexeme = u.lexeme := by
  refine Renaming.scope_of_ne (fun ht hlexeme => ?_) ?_
  · exact hne (hp.eq_of_lexeme h.surveyed ho ht hu hlexeme.symm)
  · exact h.fresh u (hp.mem_tokens_of_declarations h.surveyed ho hu)

/-- A variable becomes in its scope what the token of its declaration becomes. -/
theorem text_of_declaration (h : Renamable l body t z) (hp : Visited body p)
    (ho : o ∈ p.openers) (hu : u ∈ o.declarations) (hiff : u ∈ mentions body t ↔ u = t) :
    (Renaming.ofLocal body t z).text u = (Renaming.ofLocal body t z).scope o u.lexeme := by
  by_cases hut : u = t
  · subst hut
    rw [Renaming.scope_of_mem hu]
    exact if_pos (hiff.2 rfl)
  · rw [h.scope_of_declaration hp ho hu (Ne.symm hut)]
    exact if_neg (mt hiff.1 hut)

/-- What a variable is called where it is read or assigned. -/
theorem meets_use (h : Renamable l body t z) (hp : Visited body p) (hu : p.node.use? = some u) :
    (Renaming.ofLocal body t z).Meets u.lexeme ((Renaming.ofLocal body t z).text u) p.openers
      p.context.scopes := by
  have htext : (Renaming.ofLocal body t z).text u =
      if u.lexeme = t.lexeme ∧ (p.owner? u.lexeme).any (t ∈ ·.declarations) then z
        else u.lexeme := by
    have hiff : u ∈ mentions body t ↔
        u.lexeme = t.lexeme ∧ (p.owner? u.lexeme).any (t ∈ ·.declarations) := by
      rw [mem_mentions_of_use h.nodup h.mem hp hu, Site.mention?, hu]
      simp [Option.filter_eq_some_iff]
    simp only [Renaming.ofLocal, hiff]
  rw [htext]
  exact Renaming.meets_ofLocal (h.surveyed.settled hp).context.names
    (fun o ho => h.not_mem_names hp ho) (h.lexeme_ne hp (Site.name_mem_of_use hu) rfl)

/-- What a reserved word means stays the same. -/
theorem meets_word (h : Renamable l body t z) (k : Keyword) (os : List Opener)
    (scopes : List Scope) : (Renaming.ofLocal body t z).Meets k.text k.text os scopes :=
  Renaming.meets_self h.lawful.injective (fun o => h.lawful.word o k) _ _

/-- What a variable is called where it is declared. -/
theorem declares_variable (h : Renamable l body t z) {c : Context} {os : List Opener}
    {o : Option (Expr Occurrence)} (hp : Visited body ⟨c, os, .statement (.var u o)⟩) :
    (Renaming.ofLocal body t z).Declares u.lexeme ((Renaming.ofLocal body t z).text u) os := by
  have hiff : u ∈ mentions body t ↔ u = t :=
    mem_mentions_of_declared h.nodup hp (.head _) rfl
  cases os with
  | nil =>
    -- the variable is global, so it is another one
    refine if_neg fun hmention => ?_
    obtain rfl := hiff.1 hmention
    obtain ⟨q, hq, hlocal⟩ := mem_localVariables.1 h.mem
    have hsame := hp.eq_of_token h.nodup hq (.head _) (Site.name_mem_of_locals hlocal) rfl rfl
    rw [← hsame] at hlocal
    cases hlocal
  | cons inner os =>
    have hdeclares := hp.declarations_subset h.surveyed inner rfl
    exact h.text_of_declaration hp (.head _) (hdeclares (List.mem_singleton.2 rfl)) hiff

/-- What a function or a class is called where it is declared. -/
theorem declares_other (h : Renamable l body t z) {c : Context} {os : List Opener}
    {s : Stmt Occurrence} (hp : Visited body ⟨c, os, .statement s⟩) (hs : s.declared? = some u)
    (hne : t ≠ u) : (Renaming.ofLocal body t z).Declares u.lexeme u.lexeme os := by
  cases os with
  | nil => rfl
  | cons inner os =>
    have hdeclares := hp.declarations_subset h.surveyed inner rfl
    exact (h.scope_of_declaration hp (.head _) (hdeclares (by simp [Node.declarations, hs]))
      hne).symm

/-- The names at the sites of the program are those that the renamed scopes give. -/
theorem suits (h : Renamable l body t z) (hp : Visited body p) :
    p.Suits (Renaming.ofLocal body t z) := by
  have hgenuine := (h.surveyed.settled hp).genuine
  obtain ⟨c, os, node⟩ := p
  cases node with
  | expression e =>
    cases e with
    | «variable» | assign => exact h.meets_use hp rfl
    | this r =>
      have hword : r.token.lexeme = Keyword.thisWord.text := hgenuine
      show Renaming.Meets _ r.token.lexeme r.token.lexeme os c.scopes
      rw [hword]
      exact h.meets_word _ os c.scopes
    | super r =>
      have hword : r.token.lexeme = Keyword.superWord.text := hgenuine
      show Renaming.Meets _ r.token.lexeme r.token.lexeme os c.scopes
      rw [hword]
      exact h.meets_word _ os c.scopes
    | _ => trivial
  | statement s =>
    cases s with
    | var => exact h.declares_variable hp
    | function f =>
      have hchild : Visited body ⟨_, os, .function .function f⟩ :=
        hp.child (Site.mem_children_iff.2 (.function c os f))
      exact h.declares_other hp rfl (h.ne_of_token hchild (.head _))
    | «class» name superclass =>
      refine ⟨h.declares_other hp rfl (h.ne_of_token hp (.head _)), fun r hr => ?_⟩
      obtain rfl := Option.mem_def.1 hr
      -- neither the old name of the superclass nor its new one is that of the class
      have hother := h.surveyed.superclass_ne hp
      have hnew : name.lexeme ≠ z := h.lexeme_ne (x := .token name) hp (.head _) rfl
      refine iff_of_false ?_ hother
      simp only [Renaming.ofLocal]
      split
      · exact hnew.symm
      · exact hother
    | _ => trivial
  | body => trivial
  | function kind f =>
    intro u hu
    have hchild : Visited body ⟨_, .function f :: os, .body f.body⟩ :=
      hp.child (Site.mem_children_iff.2 (.body c os kind f))
    refine h.text_of_declaration hchild (.head _) (List.mem_append_left _ hu) ?_
    exact mem_mentions_of_declared h.nodup hp (.tail _ (List.mem_map_of_mem hu)) rfl

end Renamable

end Lox
