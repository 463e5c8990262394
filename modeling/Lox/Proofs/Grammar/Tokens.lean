import Lox.Proofs.Parser.Scanned
import Lox.Proofs.Syntax.Tokens
import Mathlib.Data.List.Nodup

/-!
# The tokens that trees are drawn from

A tree has its tokens from the text that writes it, each at most as often as it stands there,
though not always in the same order: the increment of a loop comes after the body, and the
static methods of a class before the others. What the tree takes for the name of a variable is
an identifier.

## Main definitions

* `Part.Drawn`: the parts of a tree have their tokens from a list

## Main results

* `Phrase.drawn`, `Sentence.drawn`: trees are drawn from what writes them
* `drawn_parse`: what is parsed without a report is drawn from the text
-/

namespace Lox

open Lox.Part (tokens)

/-- The parts of a tree have their tokens from a list, and the names of variables are
identifiers. -/
structure Part.Drawn (ts : List Token) (xs : List (Part Unit)) : Prop where
  count : ∀ t, (tokens xs).count t ≤ ts.count t
  identifier : ∀ t, .name t ∈ xs → t.kind = .identifier

namespace Part.Drawn

variable {ts us : List Token} {xs ys : List (Part Unit)}

theorem nil : Drawn ts [] := ⟨fun _ => Nat.zero_le _, fun _ h => by cases h⟩

theorem append (h : Drawn ts xs) (h' : Drawn us ys) : Drawn (ts ++ us) (xs ++ ys) where
  count t := by
    have hx := h.count t
    have hy := h'.count t
    rw [tokens_append, List.count_append, List.count_append]
    omega
  identifier t ht := by
    rcases List.mem_append.1 ht with ht | ht
    · exact h.identifier t ht
    · exact h'.identifier t ht

/-- Drawing from more tokens, in whatever order. -/
theorem more (h : Drawn ts xs) (hts : ∀ t, ts.count t ≤ us.count t) : Drawn us xs :=
  ⟨fun t => Nat.le_trans (h.count t) (hts t), h.identifier⟩

/-- The same parts in another order. -/
theorem perm (h : Drawn ts xs) (hperm : xs.Perm ys) : Drawn ts ys where
  count t := by
    have hcount := (hperm.filterMap token?).count_eq t
    exact Nat.le_trans (Nat.le_of_eq hcount.symm) (h.count t)
  identifier t ht := h.identifier t (hperm.mem_iff.2 ht)

theorem mem {t : Token} (h : Drawn ts xs) (ht : t ∈ tokens xs) : t ∈ ts :=
  List.count_pos_iff.1 (Nat.lt_of_lt_of_le (List.count_pos_iff.2 ht) (h.count t))

/-- What is drawn from different tokens has no token twice. -/
theorem nodup (h : Drawn ts xs) (hts : ts.Nodup) : (tokens xs).Nodup :=
  List.nodup_iff_count_le_one.2 fun t =>
    Nat.le_trans (h.count t) (List.nodup_iff_count_le_one.1 hts t)

theorem token (t : Token) (h : Drawn ts xs) : Drawn (t :: ts) (.token t :: xs) where
  count u := by
    have hx := h.count u
    rw [tokens_token, List.count_cons, List.count_cons]
    omega
  identifier u hu := h.identifier u (by simpa using hu)

theorem name {t : Token} (ht : t.kind = .identifier) (h : Drawn ts xs) :
    Drawn (t :: ts) (.name t :: xs) where
  count u := by
    have hx := h.count u
    rw [tokens_name, List.count_cons, List.count_cons]
    omega
  identifier u hu := by
    rcases List.mem_cons.1 hu with hu | hu
    · cases hu
      exact ht
    · exact h.identifier u hu

/-- A mark takes no token. -/
theorem mark (h : Drawn ts xs) : Drawn ts (.mark () :: xs) :=
  ⟨h.count, fun t ht => h.identifier t (by simpa using ht)⟩

/-- A token that the tree does not keep. -/
theorem skip (t : Token) (h : Drawn ts xs) : Drawn (t :: ts) xs :=
  h.more fun u => by
    rw [List.count_cons]
    omega

theorem snoc (h : Drawn ts xs) (t : Token) : Drawn (ts ++ [t]) xs := by
  have happend := h.append (nil : Drawn [t] [])
  rwa [List.append_nil] at happend

/-- Lists of tokens, each with what is drawn from it. -/
theorem flatten {α : Type} {parts : α → List (Part Unit)} {xs : List (List Token × α)}
    (h : ∀ x ∈ xs, Drawn x.1 (parts x.2)) :
    Drawn (xs.map (·.1)).flatten ((xs.map (·.2)).flatMap parts) := by
  induction xs with
  | nil => exact nil
  | cons x xs ih =>
    obtain ⟨hx, hxs⟩ := List.forall_mem_cons.1 h
    exact hx.append (ih hxs)

end Part.Drawn

open Lox.Part (Drawn)

/-- What stands between commas stands in the list. -/
theorem Commas.count_le {parts : List (List Token)} {ts : List Token} (h : Commas parts ts)
    (t : Token) : parts.flatten.count t ≤ ts.count t := by
  induction h with
  | none | one => simp
  | more us _ _ ih =>
    rw [List.flatten_cons, List.count_append, List.count_append, List.count_cons]
    omega

/-! ## Expressions -/

/-- An expression is drawn from the tokens that write it. -/
theorem Phrase.drawn {t : Tier} {ts : List Token} {e : Expr Unit} (h : Phrase t ts e) :
    Drawn ts e.parts := by
  induction h with
  | literal => exact .nil
  | this => exact .token _ (.mark .nil)
  | super => exact .token _ (.mark (.skip _ (.token _ .nil)))
  | name h => exact .name h (.mark .nil)
  | group _ _ _ ih => exact .skip _ (ih.snoc _)
  | field _ _ _ ih => exact ih.append (.skip _ (.token _ .nil))
  | @call a b ts us e arguments _ _ _ _ hcommas _ ih ihargs =>
    have hargs : Drawn us (Expr.partsAll (arguments.map (·.2))) := by
      rw [Expr.partsAll_eq]
      exact (Part.Drawn.flatten ihargs).more hcommas.count_le
    refine ih.append (.skip _ ?_)
    -- the closing parenthesis comes before the arguments in the tree
    refine (Part.Drawn.token b hargs).more fun t => ?_
    exact Nat.le_of_eq (by rw [List.count_cons, List.count_append, List.count_singleton])
  | unary _ _ ih => exact .token _ ih
  | binary _ _ _ _ ih ih' => exact ih.append (.token _ ih')
  | logical _ _ _ ih ih' => exact ih.append (.token _ ih')
  | @ternary a b _ _ _ _ _ _ _ _ _ _ _ _ ih ih' ih'' =>
    have hbranches := ih.append (ih'.append (ih''.skip b))
    -- the question mark comes before the condition in the tree
    refine (hbranches.token a).more fun t => ?_
    simp only [List.count_cons, List.count_append]
    omega
  | assign _ _ _ ih ih' => exact ih.append (.skip _ ih')
  | @setField a n ts us o e _ _ _ ih ih' =>
    -- the name of the field is the last token of the target
    have hboth : Drawn (ts ++ a :: us) (o.parts ++ [.token n] ++ e.parts) :=
      ih.append (.skip _ ih')
    rwa [List.append_assoc] at hboth
  | lift _ ih => exact ih

theorem Phrase?.drawn {ts : List Token} {o : Option (Expr Unit)} (h : Phrase? ts o) :
    Drawn ts (Expr.parts? o) := by
  cases h with
  | absent => exact .nil
  | present h => exact h.drawn

theorem VarSentence.drawn {ts : List Token} {s : Stmt Unit} (h : VarSentence ts s) :
    Drawn ts s.parts := by
  cases h with
  | @mk a b c ts v _ hb hv _ =>
    have hvalue : Drawn ts (Expr.parts? v) := by
      cases hv with
      | absent => exact .nil
      | present _ h => exact .skip _ h.drawn
    exact .skip _ (.name hb (hvalue.snoc _))

theorem ExpressionSentence.drawn {ts : List Token} {s : Stmt Unit}
    (h : ExpressionSentence ts s) : Drawn ts s.parts := by
  cases h with
  | mk h _ => exact h.drawn.snoc _

/-- The parts of the first clause of a `for`, which may be absent. -/
def Stmt.parts? : Option (Stmt Unit) → List (Part Unit)
  | none => []
  | some s => s.parts

theorem FirstClause.drawn {ts : List Token} {o : Option (Stmt Unit)} (h : FirstClause ts o) :
    Drawn ts (Stmt.parts? o) := by
  cases h with
  | absent => exact .nil
  | var h => exact h.drawn
  | expression h => exact h.drawn

/-- The parts of a loop are those of its clauses and of its body. -/
theorem Stmt.perm_parts_forLoop (first : Option (Stmt Unit))
    (condition increment : Option (Expr Unit)) (body : Stmt Unit) :
    (Stmt.parts? first ++ (Expr.parts? condition ++ (Expr.parts? increment ++ body.parts))).Perm
      (Stmt.forLoop first condition increment body).parts := by
  have hround : (Expr.parts? increment ++ body.parts).Perm (round body increment).parts := by
    cases increment with
    | none => exact .refl _
    | some e =>
      show (e.parts ++ body.parts).Perm (body.parts ++ (e.parts ++ []))
      rw [List.append_nil]
      exact List.perm_append_comm
  have hcondition : Expr.parts? condition =
      (condition.getD (.literal (.bool true)) : Expr Unit).parts := by
    cases condition <;> rfl
  have hloop := hround.append_left (Expr.parts? condition)
  rw [hcondition] at hloop ⊢
  cases first with
  | none => exact hloop
  | some s =>
    -- the first clause and the loop stand in a block
    have hblock := (hloop.append_left s.parts).append_right ([] : List (Part Unit))
    rwa [List.append_nil, List.append_assoc s.parts] at hblock

/-- The static methods of a class come before the others. -/
theorem FunDecl.perm_partsAll (entries : List (Bool × FunDecl Unit)) :
    ((entries.map (·.2)).flatMap FunDecl.parts).Perm
      (FunDecl.partsAll ((entries.filter (·.1)).map (·.2)) ++
        FunDecl.partsAll ((entries.filter (!·.1)).map (·.2))) := by
  rw [partsAll_eq, partsAll_eq, ← List.flatMap_append, ← List.map_append]
  exact ((List.filter_append_perm (·.1) entries).symm.map _).flatMap_right _

/-! ## Statements -/

/-- The parameters of a function, between commas. -/
theorem Commas.drawn_names {params ts : List Token} (h : Commas (params.map ([·])) ts)
    (hparams : ∀ p ∈ params, p.kind = .identifier) : Drawn ts (params.map .name) where
  count t := by
    have hflatten : (params.map ([·])).flatten = params := List.flatMap_singleton' params
    rw [Part.tokens_map_name, ← hflatten]
    exact h.count_le t
  identifier t ht := by
    obtain ⟨p, hp, heq⟩ := List.mem_map.1 ht
    cases heq
    exact hparams _ hp

/-- The statements of a body, each with the tokens that write it. -/
theorem Stmt.drawn_partsAll {body : List (List Token × Stmt Unit)}
    (h : ∀ x ∈ body, Drawn x.1 x.2.parts) :
    Drawn (body.map (·.1)).flatten (partsAll (body.map (·.2))) := by
  rw [partsAll_eq]
  exact .flatten h

theorem Announced.drawn_name {announces : Token → Bool} {ts : List Token}
    {superclass : Option (Ref Unit)} (h : Announced announces NameSentence ts superclass) :
    Drawn ts (superclass.toList.flatMap Ref.use) := by
  cases h with
  | absent => exact .nil
  | present _ h =>
    cases h with
    | mk h => exact .skip _ (.name h (.mark .nil))

/-- The functions of a class, static or not. The word that makes one static is not kept. -/
theorem Member.drawn {members : List Member} (h : ∀ m ∈ members, Drawn m.tokens m.decl.parts) :
    Drawn (members.map Member.all).flatten
      (FunDecl.partsAll (((members.map Member.entry).filter (·.1)).map (·.2)) ++
        FunDecl.partsAll (((members.map Member.entry).filter (!·.1)).map (·.2))) := by
  have hall : ∀ x ∈ members.map fun m => (m.all, m.decl), Drawn x.1 (FunDecl.parts x.2) := by
    intro x hx
    obtain ⟨m, hm, rfl⟩ := List.mem_map.1 hx
    show Drawn (m.marker.toList ++ m.tokens) m.decl.parts
    cases m.marker with
    | none => exact h m hm
    | some t => exact (h m hm).skip t
  have hflatten := Part.Drawn.flatten hall
  rw [List.map_map, List.map_map] at hflatten
  have hentries := FunDecl.perm_partsAll (members.map Member.entry)
  rw [List.map_map] at hentries
  exact hflatten.perm hentries

/-- What a clause is read as has these parts. -/
def Clause.parts : Clause → List (Part Unit)
  | .function f => f.parts
  | .statement _ s | .declaration s => s.parts

/-- What tokens are read as is drawn from them. By induction on the derivation; only a `for` and a
class do not keep their tokens in order. -/
theorem Sentence.drawn {c : Clause} {ts : List Token} (h : Sentence c ts) : Drawn ts c.parts := by
  induction h with
  | expression h => exact h.drawn
  | print _ h => exact .skip _ (h.drawn.snoc _)
  | «return» _ h => exact .token _ (h.drawn.snoc _)
  | block _ _ _ ih => exact .skip _ ((Stmt.drawn_partsAll ih).snoc _)
  | ifThen _ _ he _ _ ih => exact .skip _ (.skip _ (he.drawn.append (.skip _ ih)))
  | ifElse _ _ he _ _ _ _ ih ih' =>
    exact .skip _ (.skip _ (he.drawn.append (.skip _ (ih.append (.skip _ ih')))))
  | «while» _ _ he _ _ ih => exact .skip _ (.skip _ (he.drawn.append (.skip _ ih)))
  | «for» _ _ hfirst hcond _ hinc _ _ ih =>
    refine .skip _ (.skip _ (Part.Drawn.perm ?_ (Stmt.perm_parts_forLoop _ _ _ _)))
    exact hfirst.drawn.append (hcond.drawn.append (.skip _ (hinc.drawn.append (.skip _ ih))))
  | function ha _ hparams _ hcommas _ _ _ _ ih =>
    have hbody := (Stmt.drawn_partsAll ih).snoc
    exact .token _ (.skip _ ((hcommas.drawn_names hparams).append (.skip _ (.skip _ (hbody _)))))
  | funDeclaration _ _ ih => exact .skip _ ih
  | varDeclaration h => exact h.drawn
  | «class» _ hb hsuper _ _ _ _ ih =>
    exact .skip _ (.token _ (hsuper.drawn_name.append (.skip _ ((Member.drawn ih).snoc _))))
  | statement _ ih => exact ih

/-- What is parsed without a report is drawn from the text. -/
theorem drawn_parse {source : String} (h : (parse source).reports = []) :
    Drawn (scan source).tokens (Stmt.partsAll (parse source).statements) := by
  obtain ⟨body, htokens, hbody, hstatements⟩ := exists_sentences h
  rw [htokens, hstatements, Stmt.partsAll_eq]
  exact .flatten fun x hx => (hbody x hx).drawn

end Lox
