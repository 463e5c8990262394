import Lox.Proofs.Grammar.Sentence

/-!
# Trees written as tokens

A tree can be written as tokens again, node by node: with the parentheses of its groups and no
others, a `for` loop as the block and the `while` that it abbreviates, and the static members of a
class before the others. What the tokens of a tree write, the tokens that it is written with write
as well: grouping is explicit in the tree, and no statement becomes open that was not.

## Main definitions

* `Literal.kind`, `Token.ofSymbol`, `Token.ofKeyword`: tokens that a tree does not keep
* `Expr.write`, `Stmt.write`, `Stmt.writeAll`: the tokens that a tree is written with

## Main results

* `Phrase.write`: what an expression is written with writes it
* `Sentence.write`: what a declaration is written with writes it
-/

namespace Lox

/-- The kind of a token that writes a constant. -/
def Literal.kind : Literal → TokenKind
  | nil => .keyword .nilWord
  | bool false => .keyword .falseWord
  | bool true => .keyword .trueWord
  | number v => .number v
  | string s => .string s

theorem Literal.literal?_kind (v : Literal) : v.kind.literal? = some v := by
  cases v with
  | bool b => cases b <;> rfl
  | _ => rfl

namespace Token

/-- A symbol, wherever it stands. -/
def ofSymbol (x : Symbol) : Token := { kind := .symbol x, lexeme := x.text }

/-- A keyword, wherever it stands. -/
def ofKeyword (k : Keyword) : Token := { kind := .keyword k, lexeme := k.text }

theorem isSymbol_ofSymbol (x : Symbol) : (ofSymbol x).isSymbol x := by simp [ofSymbol, isSymbol]

theorem isKeyword_ofKeyword (k : Keyword) : (ofKeyword k).isKeyword k := by
  simp [ofKeyword, isKeyword]

end Token

open Token (ofSymbol ofKeyword isSymbol_ofSymbol isKeyword_ofKeyword)

/-- Lists of tokens with commas between them. -/
def commas : List (List Token) → List Token
  | [] => []
  | [ts] => ts
  | ts :: us :: rest => ts ++ ofSymbol .comma :: commas (us :: rest)

theorem commas_commas (parts : List (List Token)) : Commas parts (commas parts) := by
  fun_induction commas parts with
  | case1 => exact .none
  | case2 ts => exact .one ts
  | case3 ts us rest ih => exact .more ts (isSymbol_ofSymbol _) ih

section Write

variable {μ : Type} (spell : Literal → String)

namespace Expr

mutual

/-- The tokens that an expression is written with, given the texts of constants. -/
def write : Expr μ → List Token
  | .literal v => [{ kind := v.kind, lexeme := spell v }]
  | .variable name => [name.token]
  | .assign name value => name.token :: ofSymbol .equal :: value.write
  | .binary left _ token right | .logical left _ token right => left.write ++ token :: right.write
  | .unary _ token operand => token :: operand.write
  | .ternary question condition whenTrue whenFalse =>
    condition.write ++ question :: (whenTrue.write ++ ofSymbol .colon :: whenFalse.write)
  | .group inner => ofSymbol .leftParen :: (inner.write ++ [ofSymbol .rightParen])
  | .call callee paren arguments =>
    callee.write ++ ofSymbol .leftParen :: (commas (writeEach arguments) ++ [paren])
  | .field object name => object.write ++ [ofSymbol .dot, name]
  | .setField object name value =>
    object.write ++ ofSymbol .dot :: name :: ofSymbol .equal :: value.write
  | .this keyword => [keyword.token]
  | .super keyword method => [keyword.token, ofSymbol .dot, method]

/-- The tokens that each of some expressions is written with. -/
def writeEach : List (Expr μ) → List (List Token)
  | [] => []
  | e :: rest => e.write :: writeEach rest

end

theorem writeEach_eq (es : List (Expr μ)) : writeEach spell es = es.map (write spell) := by
  induction es with
  | nil => rfl
  | cons e rest ih => rw [writeEach, ih, List.map_cons]

/-- The tokens that an expression is written with, if there is one. -/
def write? : Option (Expr μ) → List Token
  | none => []
  | some e => e.write spell

end Expr

namespace Stmt

mutual

/-- The tokens that a statement is written with, given the texts of constants. -/
def write : Stmt μ → List Token
  | .expression value => value.write spell ++ [ofSymbol .semicolon]
  | .print value => ofKeyword .printWord :: (value.write spell ++ [ofSymbol .semicolon])
  | .var name none => [ofKeyword .varWord, name, ofSymbol .semicolon]
  | .var name (some value) =>
    ofKeyword .varWord :: name :: ofSymbol .equal :: (value.write spell ++ [ofSymbol .semicolon])
  | .block body => ofSymbol .leftBrace :: (writeAll body ++ [ofSymbol .rightBrace])
  | .ifThen condition thenBranch =>
    ofKeyword .ifWord :: ofSymbol .leftParen ::
      (condition.write spell ++ ofSymbol .rightParen :: thenBranch.write)
  | .ifElse condition thenBranch elseBranch =>
    ofKeyword .ifWord :: ofSymbol .leftParen :: (condition.write spell ++
      ofSymbol .rightParen :: (thenBranch.write ++ ofKeyword .elseWord :: elseBranch.write))
  | .while condition body =>
    ofKeyword .whileWord :: ofSymbol .leftParen ::
      (condition.write spell ++ ofSymbol .rightParen :: body.write)
  | .function decl => ofKeyword .funWord :: writeFunction decl
  | .return keyword value => keyword :: (Expr.write? spell value ++ [ofSymbol .semicolon])
  | .class name superclass statics methods =>
    ofKeyword .classWord :: name ::
      (superclass.toList.flatMap (fun r => [ofSymbol .less, r.token]) ++
        ofSymbol .leftBrace ::
          (writeStatics statics ++ writeMethods methods ++ [ofSymbol .rightBrace]))

/-- The tokens that a function is written with from its name on. -/
def writeFunction : FunDecl μ → List Token
  | .mk name params body =>
    name :: ofSymbol .leftParen :: (commas (params.map ([·])) ++
      ofSymbol .rightParen :: ofSymbol .leftBrace :: (writeAll body ++ [ofSymbol .rightBrace]))

/-- The tokens that statements are written with one after another. -/
def writeAll : List (Stmt μ) → List Token
  | [] => []
  | s :: rest => s.write ++ writeAll rest

/-- The tokens that static methods are written with, each after the word that makes it static. -/
def writeStatics : List (FunDecl μ) → List Token
  | [] => []
  | f :: rest => ofKeyword .classWord :: (writeFunction f ++ writeStatics rest)

/-- The tokens that instance methods are written with. -/
def writeMethods : List (FunDecl μ) → List Token
  | [] => []
  | f :: rest => writeFunction f ++ writeMethods rest

end

theorem writeAll_eq (ss : List (Stmt μ)) : writeAll spell ss = (ss.map (write spell)).flatten := by
  induction ss with
  | nil => rfl
  | cons s rest ih => rw [writeAll, ih, List.map_cons, List.flatten_cons]

theorem writeStatics_eq (fs : List (FunDecl μ)) : writeStatics spell fs =
    (fs.map fun f => ofKeyword .classWord :: writeFunction spell f).flatten := by
  induction fs with
  | nil => rfl
  | cons f rest ih => rw [writeStatics, ih, List.map_cons, List.flatten_cons, List.cons_append]

theorem writeMethods_eq (fs : List (FunDecl μ)) :
    writeMethods spell fs = (fs.map (writeFunction spell)).flatten := by
  induction fs with
  | nil => rfl
  | cons f rest ih => rw [writeMethods, ih, List.map_cons, List.flatten_cons]

end Stmt

end Write

/-! ## Expressions -/

/-- Trees, each with the tokens that it is written with in place of those that it was read from. -/
def rewritten {α : Type} (write : α → List Token) (xs : List (List Token × α)) :
    List (List Token × α) := xs.map fun x => (write x.2, x.2)

section Rewritten

variable {α : Type} {write : α → List Token} {xs : List (List Token × α)}

theorem map_snd_rewritten : (rewritten write xs).map (·.2) = xs.map (·.2) := by
  simp [rewritten, Function.comp_def]

theorem map_fst_rewritten : (rewritten write xs).map (·.1) = (xs.map (·.2)).map write := by
  simp [rewritten, Function.comp_def]

theorem forall_rewritten {P : List Token → α → Prop} (h : ∀ x ∈ xs, P (write x.2) x.2) :
    ∀ x ∈ rewritten write xs, P x.1 x.2 := by
  intro x hx
  obtain ⟨y, hy, rfl⟩ := List.mem_map.1 hx
  exact h y hy

end Rewritten

variable {spell : Literal → String} {tier : Tier} {ts : List Token} {e : Expr Unit}

/-- What an expression is written with writes it. -/
theorem Phrase.write (h : Phrase tier ts e) : Phrase tier (e.write spell) e := by
  induction h with
  | @literal t v h => exact .literal v.literal?_kind
  | this h => exact .this h
  | super ha _ hc => exact .super ha (isSymbol_ofSymbol _) hc
  | name h => exact .name h
  | group _ _ _ ih => exact .group (isSymbol_ofSymbol _) ih (isSymbol_ofSymbol _)
  | field _ _ hb ih => exact .field ih (isSymbol_ofSymbol _) hb
  | @call a b ts us e arguments _ _ _ hlimit _ hb ih hargs =>
    have hlength : (rewritten (Expr.write spell) arguments).length ≤ argumentLimit := by
      simpa [rewritten] using hlimit
    have hcall := Phrase.call ih (isSymbol_ofSymbol .leftParen)
      (forall_rewritten (P := Phrase .expr) hargs) hlength (commas_commas _) hb
    rwa [map_snd_rewritten, map_fst_rewritten, ← Expr.writeEach_eq] at hcall
  | unary ha _ ih => exact .unary ha ih
  | binary _ ha hl _ ih ih' => exact .binary ih ha hl ih'
  | logical _ ha _ ih ih' => exact .logical ih ha ih'
  | ternary _ hc ha _ _ _ ih ih' ih'' => exact .ternary ih hc ha ih' (isSymbol_ofSymbol _) ih''
  | assign _ _ _ ih ih' => exact .assign ih (isSymbol_ofSymbol _) ih'
  | @setField a n ts us o e _ _ _ ih ih' =>
    have hset := Phrase.setField ih (isSymbol_ofSymbol .equal) ih'
    rwa [Expr.write, List.append_assoc] at hset
  | lift _ ih => exact .lift ih

theorem Phrase.of_primary (h : Phrase .primary ts e) : Phrase .expr ts e :=
  .lift (.lift (.lift (.lift (.lift (.lift (.lift (.lift (.lift h))))))))

theorem Phrase?.write {v : Option (Expr Unit)} (h : Phrase? ts v) :
    Phrase? (Expr.write? spell v) v := by
  cases h with
  | absent => exact .absent
  | present h => exact .present h.write

/-! ## Statements -/

theorem VarSentence.write {s : Stmt Unit} (h : VarSentence ts s) :
    VarSentence (s.write spell) s := by
  cases h with
  | mk _ hb hv _ =>
    cases hv with
    | absent =>
      exact .mk (isKeyword_ofKeyword _) hb .absent (isSymbol_ofSymbol _)
    | present _ hv =>
      exact .mk (isKeyword_ofKeyword _) hb (.present (isSymbol_ofSymbol _) hv.write)
        (isSymbol_ofSymbol _)

theorem ExpressionSentence.write {s : Stmt Unit} (h : ExpressionSentence ts s) :
    ExpressionSentence (s.write spell) s := by
  cases h with
  | mk h _ => exact .mk h.write (isSymbol_ofSymbol _)

/-- What the tokens that a tree is written with are read as: a statement that is open only if it was
before. -/
def Clause.Rewrites (spell : Literal → String) : Clause → Prop
  | .function f => Sentence (.function f) (Stmt.writeFunction spell f)
  | .statement isOpen s =>
    ∃ o, (isOpen = false → o = false) ∧ Sentence (.statement o s) (s.write spell)
  | .declaration s => Sentence (.declaration s) (s.write spell)

namespace Sentence

/-- The first clause of a `for` as a declaration. -/
theorem write_first {s : Stmt Unit} (h : FirstClause ts (some s)) :
    Sentence (.declaration s) (s.write spell) := by
  cases h with
  | var h => exact .varDeclaration h.write
  | expression h => exact .statement (.expression h.write)

/-- A block of two declarations. -/
theorem pair {s r : Stmt Unit} {us : List Token} (hs : Sentence (.declaration s) ts)
    (hr : Sentence (.declaration r) us) :
    Sentence (.statement false (.block [s, r]))
      (ofSymbol .leftBrace :: (ts ++ (us ++ [ofSymbol .rightBrace]))) := by
  have hbody : ∀ x ∈ [(ts, s), (us, r)], Sentence (.declaration x.2) x.1 := by simp [hs, hr]
  simpa using Sentence.block (isSymbol_ofSymbol .leftBrace) hbody (isSymbol_ofSymbol .rightBrace)

theorem write_pair {s r : Stmt Unit} (hs : Sentence (.declaration s) (s.write spell))
    (hr : Sentence (.declaration r) (r.write spell)) :
    Sentence (.statement false (.block [s, r])) ((Stmt.block [s, r]).write spell) := by
  simpa [Stmt.write, Stmt.writeAll] using hs.pair hr

/-- A loop that a `for` abbreviates. -/
theorem write_forLoop {first : Option (Stmt Unit)} {condition increment : Option (Expr Unit)}
    {s : Stmt Unit} {us vs : List Token} {isOpen : Bool} (hfirst : FirstClause ts first)
    (hcond : Phrase? us condition) (hinc : Phrase? vs increment)
    (hs : (Clause.statement isOpen s).Rewrites spell) :
    (Clause.statement isOpen (.forLoop first condition increment s)).Rewrites spell := by
  obtain ⟨o, ho, hs⟩ := hs
  -- each round, and the loop around it
  obtain ⟨o', ho', hround⟩ : (Clause.statement isOpen (Stmt.round s increment)).Rewrites spell := by
    cases hinc with
    | absent => exact ⟨o, ho, hs⟩
    | present h => exact ⟨false, fun _ => rfl, write_pair (.statement hs)
        (.statement (.expression (.mk h.write (isSymbol_ofSymbol _))))⟩
  have hcondition : Phrase .expr ((condition.getD (.literal (.bool true))).write spell)
      (condition.getD (.literal (.bool true))) := by
    cases hcond with
    | absent => exact .of_primary (.literal rfl)
    | present h => exact h.write
  have hloop := Sentence.while (isKeyword_ofKeyword .whileWord) (isSymbol_ofSymbol .leftParen)
    hcondition (isSymbol_ofSymbol .rightParen) hround
  cases hfirst with
  | absent => exact ⟨o', ho', hloop⟩
  | var h => exact ⟨false, fun _ => rfl, write_pair (write_first (.var h)) (.statement hloop)⟩
  | expression h =>
    exact ⟨false, fun _ => rfl, write_pair (write_first (.expression h)) (.statement hloop)⟩

/-- A class, whose static members are written before the others. -/
theorem write_class {name : Token} {superclass : Option (Ref Unit)}
    {statics methods : List (FunDecl Unit)} (hname : name.kind = .identifier)
    (hsuper : Announced (·.isSymbol .less) NameSentence ts superclass)
    (hstatics : ∀ f ∈ statics, Sentence (.function f) (Stmt.writeFunction spell f))
    (hmethods : ∀ f ∈ methods, Sentence (.function f) (Stmt.writeFunction spell f)) :
    Sentence (.declaration (.class name superclass statics methods))
      ((Stmt.class name superclass statics methods).write spell) := by
  have hsuper' : Announced (·.isSymbol .less) NameSentence
      (superclass.toList.flatMap fun r => [ofSymbol .less, r.token]) superclass := by
    cases hsuper with
    | absent => exact .absent
    | present _ h =>
      cases h with
      | mk h => exact .present (isSymbol_ofSymbol .less) (.mk h)
  -- all members in the order in which they are written
  let member (marker : Option Token) (f : FunDecl Unit) : Member :=
    ⟨marker, Stmt.writeFunction spell f, f⟩
  let members := statics.map (member (some (ofKeyword .classWord))) ++ methods.map (member none)
  have hmarker : ∀ m ∈ members, ∀ t ∈ m.marker, t.isKeyword .classWord := by
    simp [members, member, or_imp, forall_and, isKeyword_ofKeyword]
  have hmembers : ∀ m ∈ members, Sentence (.function m.decl) m.tokens := by
    simp only [members, List.mem_append, List.mem_map]
    rintro _ (⟨f, hf, rfl⟩ | ⟨f, hf, rfl⟩)
    · exact hstatics f hf
    · exact hmethods f hf
  have hentries : members.map Member.entry =
      statics.map (true, ·) ++ methods.map (false, ·) := by
    simp [members, member, Member.entry, Function.comp_def]
  have htokens : (members.map Member.all).flatten =
      Stmt.writeStatics spell statics ++ Stmt.writeMethods spell methods := by
    simp [members, member, Member.all, Stmt.writeStatics_eq, Stmt.writeMethods_eq,
      Function.comp_def]
  have hclass := Sentence.class (isKeyword_ofKeyword .classWord) hname hsuper'
    (isSymbol_ofSymbol .leftBrace) hmarker hmembers (isSymbol_ofSymbol .rightBrace)
  rw [hentries, htokens] at hclass
  have hall : ∀ fs : List (FunDecl Unit), fs.filter (fun _ => true) = fs := fun fs => by simp
  have hnone : ∀ fs : List (FunDecl Unit), fs.filter (fun _ => false) = [] := fun fs => by simp
  simpa [Stmt.write, List.filter_map, Function.comp_def, hall, hnone] using hclass

/-- What a sentence is read as can be read from the tokens that it is written with. -/
theorem rewrites {c : Clause} (h : Sentence c ts) : c.Rewrites spell := by
  induction h with
  | expression h => exact ⟨false, fun _ => rfl, .expression h.write⟩
  | print _ h _ =>
    exact ⟨false, fun _ => rfl, .print (isKeyword_ofKeyword _) h.write (isSymbol_ofSymbol _)⟩
  | «return» ha h _ => exact ⟨false, fun _ => rfl, .return ha h.write (isSymbol_ofSymbol _)⟩
  | @block a b body _ _ _ ih =>
    have hblock := Sentence.block (isSymbol_ofSymbol .leftBrace)
      (forall_rewritten (P := fun ts s => Sentence (.declaration s) ts) ih)
      (isSymbol_ofSymbol .rightBrace)
    rw [map_snd_rewritten, map_fst_rewritten, ← Stmt.writeAll_eq] at hblock
    exact ⟨false, fun _ => rfl, hblock⟩
  | ifThen _ _ he _ _ ih =>
    obtain ⟨o, -, hs⟩ := ih
    exact ⟨true, nofun, .ifThen (isKeyword_ofKeyword _) (isSymbol_ofSymbol _) he.write
      (isSymbol_ofSymbol _) hs⟩
  | ifElse _ _ he _ _ _ _ ih ih' =>
    obtain ⟨o, ho, hs⟩ := ih
    obtain ⟨o', ho', hr⟩ := ih'
    -- what stands before the `else` was not open, and still is not
    obtain rfl := ho rfl
    exact ⟨o', ho', .ifElse (isKeyword_ofKeyword _) (isSymbol_ofSymbol _) he.write
      (isSymbol_ofSymbol _) hs (isKeyword_ofKeyword _) hr⟩
  | «while» _ _ he _ _ ih =>
    obtain ⟨o, ho, hs⟩ := ih
    exact ⟨o, ho, .while (isKeyword_ofKeyword _) (isSymbol_ofSymbol _) he.write
      (isSymbol_ofSymbol _) hs⟩
  | «for» _ _ hfirst hcond _ hinc _ _ ih => exact write_forLoop hfirst hcond hinc ih
  | @function a b c d e params ts body ha _ hparams hlimit _ _ _ _ _ ih =>
    have hfunction := Sentence.function ha (isSymbol_ofSymbol .leftParen) hparams hlimit
      (commas_commas _) (isSymbol_ofSymbol .rightParen) (isSymbol_ofSymbol .leftBrace)
      (forall_rewritten (P := fun ts s => Sentence (.declaration s) ts) ih)
      (isSymbol_ofSymbol .rightBrace)
    rwa [map_snd_rewritten, map_fst_rewritten, ← Stmt.writeAll_eq] at hfunction
  | funDeclaration _ _ ih => exact .funDeclaration (isKeyword_ofKeyword _) ih
  | varDeclaration h => exact .varDeclaration h.write
  | «class» _ hb hsuper _ _ _ _ ih =>
    have hmembers := Member.forall_mem_entries
      (P := fun f => Sentence (.function f) (Stmt.writeFunction spell f)) ih
    exact write_class hb hsuper (hmembers _) (hmembers _)
  | statement _ ih =>
    obtain ⟨o, -, hs⟩ := ih
    exact .statement hs

/-- What a declaration is written with writes it. -/
theorem write {s : Stmt Unit} (h : Sentence (.declaration s) ts) :
    Sentence (.declaration s) (s.write spell) := h.rewrites

end Sentence

end Lox
