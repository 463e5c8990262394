import Lox.Proofs.Scan.Lexicon
import Lox.Proofs.Syntax.Shape
import Mathlib.Data.List.Forall2

/-!
# Reading trees back

A node is shown by a list whose items show its parts, so it is read back to its shape if its parts
are, and if its operators and names are written as they should be.

## Main definitions

* `Sexp.Shows`: a clean symbolic expression that is read as an expression of a given shape
* `Token.ReadsBack`: a name that is read back
* `Expr.ReadsBack`, `Stmt.ReadsBack`, `Stmt.ReadsBackFunction`: what is read back if it is plain

## Main results

* `Sexp.Shows.tagged`: a list shows what its items show, put together
* `Expr.readsBack_assign`, `Stmt.readsBack_while` and their like: a node is read back if its parts
  are
* `Stmt.readsBack_forLoop`: so is a loop that is put together from its clauses
-/

namespace Lox

variable {μ : Type} {t : Token}

/-! ## Atoms -/

namespace Sexp

/-- A clean symbolic expression that is read as an expression of a given shape. -/
def Shows (x : Sexp) (s : Shape) : Prop := x.Clean ∧ x.readExpr = s

/-- An atom that is no reserved word is a name or a number. -/
theorem readExpr_ofString {s : String} (h : ∀ k : Keyword, s ≠ k.text) :
    (ofString s).readExpr = if s.toList.head?.any Piece.startsName
      then .node .variable [.word s] else .node .literal [.number s] := by
  show Shape.ofAtom s.toList = _
  rw [Shape.ofAtom, String.ofList_toList]
  split
  · exact absurd rfl (h .nilWord)
  · exact absurd rfl (h .trueWord)
  · exact absurd rfl (h .falseWord)
  · exact absurd rfl (h .thisWord)
  · rfl

end Sexp

/-- A name that is read back. -/
def Token.ReadsBack (t : Token) : Prop := t.sexp.Shows (.node .variable [.word t.lexeme])

@[simp] theorem Shape.ofName_sexp (t : Token) : Shape.ofName t.sexp = .word t.lexeme := by
  simp [Token.sexp, Sexp.ofString, ofName]

/-- Names that are no reserved words are read back. -/
theorem Token.readsBack_of_name (h : NameShaped t.lexeme.toList)
    (hk : ∀ k : Keyword, t.lexeme ≠ k.text) : t.ReadsBack := by
  constructor
  · obtain ⟨c, rest, htext, hc, hrest⟩ := h
    apply Sexp.solid_of_all (p := Piece.inName) ⟨rfl, rfl, rfl⟩
    · rw [htext]
      exact List.cons_ne_nil c rest
    · intro d hd
      rw [htext] at hd
      rcases List.mem_cons.1 hd with rfl | hd
      · exact inName_iff.2 (.inl hc)
      · exact inName_iff.2 (hrest d hd)
  · obtain ⟨c, rest, htext, hc, -⟩ := h
    have hstart : t.lexeme.toList.head?.any Piece.startsName := by
      rw [htext]
      exact startsName_iff.2 hc
    rw [Token.sexp, Sexp.readExpr_ofString hk, if_pos hstart]

/-- A number is read back. -/
theorem shows_numeral {s : String} (h : Decimal.IsNumeral s) :
    (Sexp.ofString s).Shows (.node .literal [.number s]) := by
  have hstart : s.toList.head?.any Piece.startsName = false := by
    have hs := h.start
    cases htext : s.toList with
    | nil => rfl
    | cons c rest =>
      rw [htext] at hs
      rw [List.head?_cons, Option.any_some, Bool.eq_false_iff]
      intro hc
      rw [List.head?_cons, Option.any_some, Piece.not_isDigit_of_startsName hc, Bool.false_or,
        beq_iff_eq] at hs
      subst hs
      cases hc
  constructor
  · apply Sexp.solid_of_all (p := Decimal.inNumeral) ⟨rfl, rfl, rfl⟩
    · intro hnil
      have hs := h.start
      rw [hnil] at hs
      cases hs
    · exact List.all_eq_true.1 h.chars
  · -- no reserved word starts as a number does
    have hk : ∀ k : Keyword, s ≠ k.text := by
      rintro k rfl
      cases k <;> cases hstart
    rw [Sexp.readExpr_ofString hk, if_neg (by rw [hstart]; exact Bool.false_ne_true)]

/-! ## Lists -/

namespace Sexp

variable {xs : List Sexp} {ss : List Shape}

theorem shows_all (h : List.Forall₂ Shows xs ss) : CleanAll xs ∧ readExprs xs = ss := by
  induction h with
  | nil => exact ⟨trivial, rfl⟩
  | cons h _ ih => exact ⟨⟨h.1, ih.1⟩, by rw [readExprs, h.2, ih.2]⟩

/-- A list shows what its items show, put together by the word at its front. -/
theorem Shows.tagged {head : String} {s : Shape} (hhead : Solid head.toList)
    (h : List.Forall₂ Shows xs ss) (hs : Shape.ofList head ss = s) : (tagged head xs).Shows s := by
  obtain ⟨hclean, hread⟩ := shows_all h
  refine ⟨⟨hhead, hclean⟩, ?_⟩
  rw [readExpr_tagged, hread, hs]

end Sexp

/-! ## Expressions -/

namespace Expr

/-- An expression that is read back to its shape if it is plain. -/
def ReadsBack (e : Expr μ) : Prop := e.outline.Plain → e.sexp.Shows e.outline.shape

variable {e l r : Expr μ} {name : Ref μ}

theorem readsBack_literal (v : Literal) : (Expr.literal v : Expr μ).ReadsBack := by
  rintro ⟨hplain, -⟩
  cases v with
  | nil => exact ⟨Sexp.clean_ofString (by decide), rfl⟩
  | bool b =>
    cases b with
    | true => exact ⟨Sexp.clean_ofString (by decide), rfl⟩
    | false => exact ⟨Sexp.clean_ofString (by decide), rfl⟩
  -- infinity would be shown as a name, so finiteness is needed here
  | number v => exact shows_numeral (Decimal.Layout.isNumeral_write hplain)
  | string s => cases hplain

theorem readsBack_variable (h : name.token.ReadsBack) : (Expr.variable name).ReadsBack := fun _ => h

theorem readsBack_this (h : name.token.lexeme = "this") : (Expr.this name).ReadsBack := by
  intro _
  refine ⟨Sexp.clean_ofString (by decide), ?_⟩
  show _ = Shape.node .thisRef [.word name.token.lexeme]
  rw [h]
  rfl

theorem readsBack_super (hkeyword : name.token.lexeme = "super") (h : t.ReadsBack) :
    (Expr.super name t).ReadsBack := by
  intro _
  apply Sexp.Shows.tagged (by decide) (.cons h .nil)
  show _ = Shape.node .superRef [.word name.token.lexeme, .word t.lexeme]
  rw [hkeyword]
  rfl

theorem readsBack_group (h : e.ReadsBack) : (Expr.group e).ReadsBack := by
  rintro ⟨hplain, -⟩
  exact .tagged (by decide) (.cons (h hplain) .nil) rfl

/-- The target is shown as the variable that it is. -/
theorem readsBack_assign (hname : (Expr.variable name).ReadsBack) (h : e.ReadsBack) :
    (Expr.assign name e).ReadsBack := by
  rintro ⟨-, hplain, -⟩
  have htarget := hname ⟨trivial, trivial⟩
  exact .tagged (by decide) (.cons htarget (.cons (h hplain) .nil)) rfl

theorem readsBack_field (h : e.ReadsBack) (ht : t.ReadsBack) : (Expr.field e t).ReadsBack := by
  rintro ⟨hplain, -⟩
  exact .tagged (by decide) (.cons (h hplain) (.cons ht .nil)) rfl

/-- The target is shown as the property that it is. -/
theorem readsBack_setField (hfield : (Expr.field l t).ReadsBack) (h : e.ReadsBack) :
    (Expr.setField l t e).ReadsBack := by
  rintro ⟨hobject, -, hplain, -⟩
  have htarget := hfield ⟨hobject, trivial, trivial⟩
  exact .tagged (by decide) (.cons htarget (.cons (h hplain) .nil)) rfl

/-- The text of an operator with two operands is no other word at the front of a list. -/
theorem readsBack_binary {x : Symbol} {op : BinaryOp}
    (hx : (TokenKind.symbol x).binaryOp? = some op)
    (ht : t.lexeme = x.text) (hl : l.ReadsBack) (hr : r.ReadsBack) :
    (Expr.binary l op t r).ReadsBack := by
  rintro ⟨hleft, -, hright, -⟩
  refine .tagged ?_ (.cons (hl hleft) (.cons (hr hright) .nil)) ?_
  · rw [ht]
    cases x <;> first | decide | cases hx
  · show _ = Shape.node .binary [l.outline.shape, .word t.lexeme, r.outline.shape]
    rw [ht]
    cases x <;> first | rfl | cases hx

theorem readsBack_logical {k : Keyword} {op : LogicalOp}
    (hk : (TokenKind.keyword k).logicalOp? = some op) (ht : t.lexeme = k.text) (hl : l.ReadsBack)
    (hr : r.ReadsBack) : (Expr.logical l op t r).ReadsBack := by
  rintro ⟨hleft, -, hright, -⟩
  refine .tagged ?_ (.cons (hl hleft) (.cons (hr hright) .nil)) ?_
  · rw [ht]
    cases k <;> decide
  · show _ = Shape.node .logical [l.outline.shape, .word t.lexeme, r.outline.shape]
    rw [ht]
    cases k <;> first | rfl | cases hk

/-- A minus is told from the one with two operands by the number of items. -/
theorem readsBack_unary {x : Symbol} {op : UnaryOp} (hx : (TokenKind.symbol x).unaryOp? = some op)
    (ht : t.lexeme = x.text) (h : e.ReadsBack) : (Expr.unary op t e).ReadsBack := by
  rintro ⟨-, hplain, -⟩
  refine .tagged ?_ (.cons (h hplain) .nil) ?_
  · rw [ht]
    cases x <;> first | decide | cases hx
  · show _ = Shape.node .unary [.word t.lexeme, e.outline.shape]
    rw [ht]
    cases x <;> first | rfl | cases hx

theorem readsBack_ternary (ht : t.lexeme = "?") (h : e.ReadsBack) (hl : l.ReadsBack)
    (hr : r.ReadsBack) : (Expr.ternary t e l r).ReadsBack := by
  rintro ⟨-, hplain, hleft, hright, -⟩
  apply Sexp.Shows.tagged (by decide)
    (.cons (h hplain) (.cons (hl hleft) (.cons (hr hright) .nil)))
  show _ = Shape.node .ternary [.word t.lexeme, e.outline.shape, l.outline.shape, r.outline.shape]
  rw [ht]
  rfl

theorem forall₂_shows {es : List (Expr μ)} (h : ∀ e ∈ es, e.ReadsBack)
    (hplain : Outline.PlainAll (outlines es)) :
    List.Forall₂ Sexp.Shows (sexps es) (Outline.shapes (outlines es)) := by
  induction es with
  | nil => exact .nil
  | cons e rest ih =>
    obtain ⟨he, hrest⟩ := List.forall_mem_cons.1 h
    exact .cons (he hplain.1) (ih hrest hplain.2)

theorem readsBack_call {es : List (Expr μ)} (ht : t.lexeme = ")") (h : e.ReadsBack)
    (hes : ∀ a ∈ es, a.ReadsBack) : (Expr.call e t es).ReadsBack := by
  rintro ⟨hplain, -, hrest⟩
  apply Sexp.Shows.tagged (by decide) (.cons (h hplain) (forall₂_shows hes hrest))
  show _ = Shape.node .call (e.outline.shape :: .word t.lexeme :: Outline.shapes (outlines es))
  rw [ht]
  rfl

end Expr

/-! ## Statements -/

namespace Stmt

/-- A statement that is read back to its shape if it is plain. -/
def ReadsBack (s : Stmt μ) : Prop :=
  s.outline.Plain → s.sexp.Clean ∧ s.sexp.readStmt = s.outline.shape

/-- What stands behind the word at the front of a function. -/
def functionParts : FunDecl μ → List Sexp
  | .mk name params body => name.sexp :: .list (params.map Token.sexp) :: sexps body

theorem functionSexp_eq (head : String) (f : FunDecl μ) :
    functionSexp head f = .tagged head (functionParts f) := by
  cases f
  rfl

/-- A function that is read back to its shape if it is plain. -/
def ReadsBackFunction (f : FunDecl μ) : Prop :=
  (functionOutline f).Plain → Sexp.CleanAll (functionParts f) ∧
    Sexp.readFunction (functionParts f) = (functionOutline f).shape

variable {e : Expr μ} {s r : Stmt μ}

theorem readsBack_expression (h : e.ReadsBack) : (Stmt.expression e).ReadsBack := by
  rintro ⟨hplain, -⟩
  obtain ⟨hclean, hread⟩ := h hplain
  refine ⟨Sexp.clean_tagged (by decide) ⟨hclean, trivial⟩, ?_⟩
  show Shape.node .exprStmt [e.sexp.readExpr] = _
  rw [hread]
  rfl

theorem readsBack_print (h : e.ReadsBack) : (Stmt.print e).ReadsBack := by
  rintro ⟨hplain, -⟩
  obtain ⟨hclean, hread⟩ := h hplain
  refine ⟨Sexp.clean_tagged (by decide) ⟨hclean, trivial⟩, ?_⟩
  show Shape.node .printStmt [e.sexp.readExpr] = _
  rw [hread]
  rfl

theorem readsBack_var {o : Option (Expr μ)} (ht : t.ReadsBack) (h : ∀ e ∈ o, e.ReadsBack) :
    (Stmt.var t o).ReadsBack := by
  rintro ⟨-, hplain, -⟩
  cases o with
  | none =>
    refine ⟨Sexp.clean_tagged (by decide) ⟨ht.1, trivial⟩, ?_⟩
    show Shape.node .varDecl [.ofName t.sexp, .absent] = _
    rw [Shape.ofName_sexp]
    rfl
  | some e =>
    obtain ⟨hclean, hread⟩ := h e rfl hplain
    refine ⟨Sexp.clean_tagged (by decide) ⟨ht.1, hclean, trivial⟩, ?_⟩
    show Shape.node .varDecl [.ofName t.sexp, e.sexp.readExpr] = _
    rw [Shape.ofName_sexp, hread]
    rfl

theorem readsBack_all {body : List (Stmt μ)} (h : ∀ s ∈ body, s.ReadsBack)
    (hplain : Outline.PlainAll (outlines body)) :
    Sexp.CleanAll (sexps body) ∧
      Sexp.readStmts (sexps body) = Outline.shapes (outlines body) := by
  induction body with
  | nil => exact ⟨trivial, rfl⟩
  | cons s rest ih =>
    obtain ⟨hs, hrest⟩ := List.forall_mem_cons.1 h
    obtain ⟨hclean, hread⟩ := hs hplain.1
    obtain ⟨hcleans, hreads⟩ := ih hrest hplain.2
    refine ⟨⟨hclean, hcleans⟩, ?_⟩
    rw [sexps, Sexp.readStmts, hread, hreads]
    rfl

theorem readsBack_block {body : List (Stmt μ)} (h : ∀ s ∈ body, s.ReadsBack) :
    (Stmt.block body).ReadsBack := by
  intro hplain
  obtain ⟨hclean, hread⟩ := readsBack_all h hplain
  refine ⟨Sexp.clean_tagged (by decide) hclean, ?_⟩
  show Shape.node .block (Sexp.readStmts (sexps body)) = _
  rw [hread]
  rfl

theorem readsBack_ifThen (h : e.ReadsBack) (hs : s.ReadsBack) : (Stmt.ifThen e s).ReadsBack := by
  rintro ⟨hplain, hplain', -⟩
  obtain ⟨hclean, hread⟩ := h hplain
  obtain ⟨hclean', hread'⟩ := hs hplain'
  refine ⟨Sexp.clean_tagged (by decide) ⟨hclean, hclean', trivial⟩, ?_⟩
  show Shape.node .ifStmt [e.sexp.readExpr, s.sexp.readStmt, .absent] = _
  rw [hread, hread']
  rfl

theorem readsBack_ifElse (h : e.ReadsBack) (hs : s.ReadsBack) (hr : r.ReadsBack) :
    (Stmt.ifElse e s r).ReadsBack := by
  rintro ⟨hplain, hplain', hplain'', -⟩
  obtain ⟨hclean, hread⟩ := h hplain
  obtain ⟨hclean', hread'⟩ := hs hplain'
  obtain ⟨hclean'', hread''⟩ := hr hplain''
  refine ⟨Sexp.clean_tagged (by decide) ⟨hclean, hclean', hclean'', trivial⟩, ?_⟩
  show Shape.node .ifStmt [e.sexp.readExpr, s.sexp.readStmt, r.sexp.readStmt] = _
  rw [hread, hread', hread'']
  rfl

theorem readsBack_while (h : e.ReadsBack) (hs : s.ReadsBack) : (Stmt.while e s).ReadsBack := by
  rintro ⟨hplain, hplain', -⟩
  obtain ⟨hclean, hread⟩ := h hplain
  obtain ⟨hclean', hread'⟩ := hs hplain'
  refine ⟨Sexp.clean_tagged (by decide) ⟨hclean, hclean', trivial⟩, ?_⟩
  show Shape.node .whileStmt [e.sexp.readExpr, s.sexp.readStmt] = _
  rw [hread, hread']
  rfl

theorem readsBack_return {o : Option (Expr μ)} (ht : t.lexeme = "return")
    (h : ∀ e ∈ o, e.ReadsBack) : (Stmt.return t o).ReadsBack := by
  rintro ⟨-, hplain, -⟩
  cases o with
  | none =>
    refine ⟨Sexp.clean_tagged (by decide) trivial, ?_⟩
    show _ = Shape.node .returnStmt [.word t.lexeme, .absent]
    rw [ht]
    rfl
  | some e =>
    obtain ⟨hclean, hread⟩ := h e rfl hplain
    refine ⟨Sexp.clean_tagged (by decide) ⟨hclean, trivial⟩, ?_⟩
    show Shape.node .returnStmt [.word "return", e.sexp.readExpr] =
      Shape.node .returnStmt [.word t.lexeme, e.outline.shape]
    rw [ht, hread]

/-- A loop is read back as the statements that it stands for. -/
theorem readsBack_forLoop {first : Option (Stmt μ)} {condition increment : Option (Expr μ)}
    (hfirst : ∀ s ∈ first, s.ReadsBack) (hc : ∀ e ∈ condition, e.ReadsBack)
    (hi : ∀ e ∈ increment, e.ReadsBack) (hs : s.ReadsBack) :
    (forLoop first condition increment s).ReadsBack := by
  have hcond : (condition.getD (.literal (.bool true))).ReadsBack := by
    cases condition with
    | none => exact Expr.readsBack_literal _
    | some e => exact hc e rfl
  have hround : (round s increment).ReadsBack := by
    cases increment with
    | none => exact hs
    | some e =>
      -- the body and the increment are a block of their own
      apply readsBack_block
      simpa [hs] using readsBack_expression (hi e rfl)
  have hloop := readsBack_while hcond hround
  cases first with
  | none => exact hloop
  | some s =>
    apply readsBack_block
    simpa [hfirst s rfl] using hloop

/-! ### Functions and classes -/

theorem readsBackFunction {params : List Token} {body : List (Stmt μ)} (ht : t.ReadsBack)
    (hparams : ∀ p ∈ params, p.ReadsBack) (hbody : ∀ s ∈ body, s.ReadsBack) :
    ReadsBackFunction (.mk t params body) := by
  rintro ⟨-, -, hplain, -⟩
  obtain ⟨hclean, hread⟩ := readsBack_all hbody hplain
  have hnames : Sexp.CleanAll (params.map Token.sexp) ∧
      (params.map Token.sexp).map Shape.ofName = Outline.shapes (params.map .token) := by
    -- the body would be carried through the induction
    clear hbody
    induction params with
    | nil => exact ⟨trivial, rfl⟩
    | cons p rest ih =>
      obtain ⟨hp, hrest⟩ := List.forall_mem_cons.1 hparams
      obtain ⟨hcleans, hreads⟩ := ih hrest
      refine ⟨⟨hp.1, hcleans⟩, ?_⟩
      rw [List.map_cons, List.map_cons, Shape.ofName_sexp, hreads]
      rfl
  refine ⟨⟨ht.1, hnames.1, hclean⟩, ?_⟩
  show Shape.node .function [.ofName t.sexp, .node .params ((params.map Token.sexp).map .ofName),
    .node .body (Sexp.readStmts (sexps body))] = _
  rw [Shape.ofName_sexp, hnames.2, hread]
  rfl

theorem readsBack_function {f : FunDecl μ} (h : ReadsBackFunction f) :
    (Stmt.function f).ReadsBack := by
  intro hplain
  obtain ⟨hclean, hread⟩ := h hplain
  rw [sexp, functionSexp_eq]
  refine ⟨Sexp.clean_tagged (by decide) hclean, ?_⟩
  show Sexp.readFunction (functionParts f) = _
  rw [hread]
  rfl

variable {fs : List (FunDecl μ)}

theorem cleanAll_functionSexps {head : String} (hhead : Sexp.Solid head.toList)
    (h : ∀ f ∈ fs, ReadsBackFunction f) (hplain : Outline.PlainAll (functionOutlines fs)) :
    Sexp.CleanAll (functionSexps head fs) := by
  induction fs with
  | nil => trivial
  | cons f rest ih =>
    obtain ⟨hf, hrest⟩ := List.forall_mem_cons.1 h
    rw [functionSexps, functionSexp_eq]
    exact ⟨⟨hhead, (hf hplain.1).1⟩, ih hrest hplain.2⟩

/-- The functions behind one word are read in their order. -/
theorem readMembers_functionSexps (head : String) (h : ∀ f ∈ fs, ReadsBackFunction f)
    (hplain : Outline.PlainAll (functionOutlines fs)) (more : List Sexp) :
    Sexp.readMembers head (functionSexps head fs ++ more) =
      Outline.shapes (functionOutlines fs) ++ Sexp.readMembers head more := by
  induction fs with
  | nil => rfl
  | cons f rest ih =>
    obtain ⟨hf, hrest⟩ := List.forall_mem_cons.1 h
    rw [functionSexps, functionSexp_eq, List.cons_append, Sexp.tagged, Sexp.ofString,
      Sexp.readMembers, if_pos String.ofList_toList, (hf hplain.1).2, ih hrest hplain.2]
    rfl

/-- The functions behind another word are passed over. -/
theorem readMembers_of_ne {head word : String} (hne : word ≠ head) (fs : List (FunDecl μ))
    (more : List Sexp) :
    Sexp.readMembers head (functionSexps word fs ++ more) = Sexp.readMembers head more := by
  induction fs with
  | nil => rfl
  | cons f rest ih =>
    rw [functionSexps, functionSexp_eq, List.cons_append, Sexp.tagged, Sexp.ofString,
      Sexp.readMembers, if_neg (by rwa [String.ofList_toList]), ih]

/-- The members of a class as they are shown. -/
def memberSexps (statics methods : List (FunDecl μ)) : List Sexp :=
  functionSexps "class" statics ++ functionSexps "fun" methods

/-- Members are shown as lists, so none is taken for the sign before a superclass. -/
theorem exists_list_of_memberSexps (statics methods : List (FunDecl μ)) :
    ∀ x ∈ (memberSexps statics methods).head?, ∃ items, x = Sexp.list items := by
  intro x hx
  cases statics with
  | cons f rest =>
    obtain rfl : functionSexp "class" f = x := Option.some.inj hx
    exact ⟨_, functionSexp_eq "class" f⟩
  | nil =>
    cases methods with
    | nil => cases hx
    | cons f rest =>
      obtain rfl : functionSexp "fun" f = x := Option.some.inj hx
      exact ⟨_, functionSexp_eq "fun" f⟩

theorem readStmt_class {name : Sexp} {members : List Sexp}
    (h : ∀ x ∈ members.head?, ∃ items, x = .list items) :
    (Sexp.tagged "class" (name :: members)).readStmt =
      .node .classDef [.ofName name, .absent, .node .statics (Sexp.readMembers "class" members),
        .node .methods (Sexp.readMembers "fun" members)] := by
  cases members with
  | nil => rfl
  | cons x rest =>
    obtain ⟨items, rfl⟩ := h x rfl
    rfl

section Members

variable {statics methods : List (FunDecl μ)} (hstatics : ∀ f ∈ statics, ReadsBackFunction f)
  (hmethods : ∀ f ∈ methods, ReadsBackFunction f)
  (hs : Outline.PlainAll (functionOutlines statics))
  (hm : Outline.PlainAll (functionOutlines methods))

include hstatics hs hmethods hm in
theorem cleanAll_memberSexps : Sexp.CleanAll (memberSexps statics methods) :=
  Sexp.cleanAll_append.2 ⟨cleanAll_functionSexps (by decide) hstatics hs,
    cleanAll_functionSexps (by decide) hmethods hm⟩

include hstatics hs in
theorem readMembers_statics : Sexp.readMembers "class" (memberSexps statics methods) =
    Outline.shapes (functionOutlines statics) := by
  rw [memberSexps, readMembers_functionSexps "class" hstatics hs,
    ← List.append_nil (functionSexps "fun" methods), readMembers_of_ne (by decide),
    Sexp.readMembers, List.append_nil]

include hmethods hm in
theorem readMembers_methods : Sexp.readMembers "fun" (memberSexps statics methods) =
    Outline.shapes (functionOutlines methods) := by
  rw [memberSexps, readMembers_of_ne (by decide), ← List.append_nil (functionSexps "fun" methods),
    readMembers_functionSexps "fun" hmethods hm, Sexp.readMembers, List.append_nil]

end Members

theorem readsBack_class {superclass : Option (Ref μ)} {statics methods : List (FunDecl μ)}
    (ht : t.ReadsBack) (hsuper : ∀ r ∈ superclass, r.token.ReadsBack)
    (hstatics : ∀ f ∈ statics, ReadsBackFunction f)
    (hmethods : ∀ f ∈ methods, ReadsBackFunction f) :
    (Stmt.class t superclass statics methods).ReadsBack := by
  rintro ⟨-, -, hs, hm, -⟩
  have hclean := cleanAll_memberSexps hstatics hmethods hs hm
  cases superclass with
  | none =>
    -- the reader looks for a sign here, and finds a member or nothing
    refine ⟨Sexp.clean_tagged (by decide) ⟨ht.1, hclean⟩, ?_⟩
    show (Sexp.tagged "class" (t.sexp :: memberSexps statics methods)).readStmt = _
    rw [readStmt_class (exists_list_of_memberSexps statics methods), Shape.ofName_sexp,
      readMembers_statics hstatics hs, readMembers_methods hmethods hm]
    rfl
  | some r =>
    have hsign : (Sexp.ofString "<").Clean := Sexp.clean_ofString (by decide)
    refine ⟨Sexp.clean_tagged (by decide) ⟨ht.1, hsign, (hsuper r rfl).1, hclean⟩, ?_⟩
    show Shape.node .classDef [.ofName t.sexp, .node .variable [.ofName r.token.sexp],
      .node .statics (Sexp.readMembers "class" (memberSexps statics methods)),
      .node .methods (Sexp.readMembers "fun" (memberSexps statics methods))] = _
    rw [Shape.ofName_sexp, Shape.ofName_sexp, readMembers_statics hstatics hs,
      readMembers_methods hmethods hm]
    rfl

end Stmt

end Lox
