import Lox.Proofs.Grammar.Genuine
import Lox.Proofs.Syntax.ReadBack

/-!
# What lexemes write is read back

A tree that is written by lexemes of the right kinds has names, operators and words that are spelled
as they should be, so its symbolic expression is read back to its shape.

## Main definitions

* `Token.IsLexeme`: a token whose text is a lexeme of its kind

## Main results

* `Phrase.readsBack`, `Sentence.readsBack`: what lexemes are read as is read back if it is plain
-/

namespace Lox

/-! ## Tokens -/

/-- A token whose text is a lexeme of its kind. -/
def Token.IsLexeme (t : Token) : Prop := Lexical (.token t.kind) t.lexeme.toList

namespace Token.IsLexeme

variable {t : Token} (h : t.IsLexeme)

include h

theorem symbol {x : Symbol} (hx : t.kind = .symbol x) : t.lexeme = x.text := by
  rw [IsLexeme, hx] at h
  generalize htext : t.lexeme.toList = s at h
  cases h
  exact String.toList_injective htext

theorem keyword {k : Keyword} (hk : t.isKeyword k) : t.lexeme = k.text := by
  rw [IsLexeme, Token.kind_of_isKeyword hk] at h
  generalize htext : t.lexeme.toList = s at h
  cases h
  exact String.toList_injective htext

theorem readsBack (hk : t.kind = .identifier) : t.ReadsBack := by
  rw [IsLexeme, hk] at h
  generalize htext : t.lexeme.toList = s at h
  cases h with
  | identifier hshape hword =>
    subst htext
    exact Token.readsBack_of_name hshape fun k heq => hword k (congrArg String.toList heq).symm

end Token.IsLexeme

theorem TokenKind.exists_symbol_of_binaryOp? {k : TokenKind} {op : BinaryOp}
    (h : k.binaryOp? = some op) : ∃ x, k = .symbol x := by
  cases k with
  | symbol x => exact ⟨x, rfl⟩
  | _ => cases h

theorem TokenKind.exists_symbol_of_unaryOp? {k : TokenKind} {op : UnaryOp}
    (h : k.unaryOp? = some op) : ∃ x, k = .symbol x := by
  cases k with
  | symbol x => exact ⟨x, rfl⟩
  | _ => cases h

theorem TokenKind.exists_keyword_of_logicalOp? {k : TokenKind} {op : LogicalOp}
    (h : k.logicalOp? = some op) : ∃ w, k = .keyword w := by
  cases k with
  | keyword w => exact ⟨w, rfl⟩
  | _ => cases h

/-! ## Expressions -/

/-- An expression of lexemes is read back. -/
theorem Phrase.readsBack {t : Tier} {ts : List Token} {e : Expr Unit} (h : Phrase t ts e)
    (hts : ∀ a ∈ ts, a.IsLexeme) : e.ReadsBack := by
  induction h with
  | literal => exact Expr.readsBack_literal _
  | @this t h => exact Expr.readsBack_this ((hts t (by simp)).keyword h)
  | @super a b c ha hb hc =>
    exact Expr.readsBack_super ((hts a (by simp)).keyword ha) ((hts c (by simp)).readsBack hc)
  | @name t h => exact Expr.readsBack_variable ((hts t (by simp)).readsBack h)
  | group ha h hb ih => exact Expr.readsBack_group (ih fun a ha => hts a (by simp [ha]))
  | @field a b ts e h ha hb ih =>
    exact Expr.readsBack_field (ih fun a ha => hts a (by simp [ha]))
      ((hts b (by simp)).readsBack hb)
  | @call a b ts us e arguments h ha hargs hlimit hcommas hb ih ihargs =>
    refine Expr.readsBack_call ((hts b (by simp)).symbol (Token.kind_of_isSymbol hb))
      (ih fun a ha => hts a (by simp [ha])) fun e he => ?_
    obtain ⟨x, hx, rfl⟩ := List.mem_map.1 he
    exact ihargs x hx fun a ha => hts a (by simp [hcommas.mem (List.mem_map_of_mem hx) ha])
  | @unary a ts op e ha h ih =>
    obtain ⟨x, hx⟩ := TokenKind.exists_symbol_of_unaryOp? ha
    rw [hx] at ha
    exact Expr.readsBack_unary ha ((hts a (by simp)).symbol hx)
      (ih fun a ha => hts a (by simp [ha]))
  | @binary a ts us op l e r h ha hl hr ih ih' =>
    obtain ⟨x, hx⟩ := TokenKind.exists_symbol_of_binaryOp? ha
    rw [hx] at ha
    exact Expr.readsBack_binary ha ((hts a (by simp)).symbol hx)
      (ih fun a ha => hts a (by simp [ha])) (ih' fun a ha => hts a (by simp [ha]))
  | @logical a ts us op e r h ha hr ih ih' =>
    obtain ⟨k, hk⟩ := TokenKind.exists_keyword_of_logicalOp? ha
    rw [hk] at ha
    exact Expr.readsBack_logical ha ((hts a (by simp)).keyword (decide_eq_true hk))
      (ih fun a ha => hts a (by simp [ha])) (ih' fun a ha => hts a (by simp [ha]))
  | @ternary a b ts us vs c e r h hc ha ht hb hf ih ih' ih'' =>
    exact Expr.readsBack_ternary ((hts a (by simp)).symbol (Token.kind_of_isSymbol ha))
      (ih fun a ha => hts a (by simp [ha])) (ih' fun a ha => hts a (by simp [ha]))
      (ih'' fun a ha => hts a (by simp [ha]))
  | assign h ha hv ih ih' =>
    exact Expr.readsBack_assign (ih fun a ha => hts a (by simp [ha]))
      (ih' fun a ha => hts a (by simp [ha]))
  | setField h ha hv ih ih' =>
    exact Expr.readsBack_setField (ih fun a ha => hts a (by simp [ha]))
      (ih' fun a ha => hts a (by simp [ha]))
  | lift h ih => exact ih hts

theorem Phrase?.readsBack {ts : List Token} {o : Option (Expr Unit)} (h : Phrase? ts o)
    (hts : ∀ a ∈ ts, a.IsLexeme) : ∀ e ∈ o, e.ReadsBack := by
  rintro e rfl
  cases h with
  | present h => exact h.readsBack hts

/-! ## Statements -/

theorem VarSentence.readsBack {ts : List Token} {s : Stmt Unit} (h : VarSentence ts s)
    (hts : ∀ a ∈ ts, a.IsLexeme) : s.ReadsBack := by
  cases h with
  | mk ha hb hv hc =>
    refine Stmt.readsBack_var ((hts _ (by simp)).readsBack hb) ?_
    rintro e rfl
    cases hv with
    | present _ h => exact h.readsBack fun a ha => hts a (by simp [ha])

theorem ExpressionSentence.readsBack {ts : List Token} {s : Stmt Unit}
    (h : ExpressionSentence ts s) (hts : ∀ a ∈ ts, a.IsLexeme) : s.ReadsBack := by
  cases h with
  | mk h ha => exact Stmt.readsBack_expression (h.readsBack fun a ha => hts a (by simp [ha]))

theorem FirstClause.readsBack {ts : List Token} {s : Option (Stmt Unit)} (h : FirstClause ts s)
    (hts : ∀ a ∈ ts, a.IsLexeme) : ∀ r ∈ s, r.ReadsBack := by
  rintro r rfl
  cases h with
  | var h => exact h.readsBack hts
  | expression h => exact h.readsBack hts

/-- What is read back when tokens are read as a clause. -/
def Clause.ReadsBack : Clause → Prop
  | .function f => Stmt.ReadsBackFunction f
  | .statement _ s | .declaration s => s.ReadsBack

/-- What lexemes are read as is read back. -/
theorem Sentence.readsBack {c : Clause} {ts : List Token} (h : Sentence c ts)
    (hts : ∀ a ∈ ts, a.IsLexeme) : c.ReadsBack := by
  induction h with
  | expression h => exact h.readsBack hts
  | print _ h => exact Stmt.readsBack_print (h.readsBack fun a ha => hts a (by simp [ha]))
  | «return» ha h =>
    exact Stmt.readsBack_return ((hts _ (by simp)).keyword ha)
      (h.readsBack fun a ha => hts a (by simp [ha]))
  | block _ _ _ ih =>
    simp only [List.forall_mem_append, List.forall_mem_cons] at hts
    exact Stmt.readsBack_block (forall_mem_body ih hts.2.1)
  | ifThen _ _ he _ _ ih =>
    simp only [List.forall_mem_append, List.forall_mem_cons] at hts
    exact Stmt.readsBack_ifThen (he.readsBack hts.2.2.1) (ih hts.2.2.2.2)
  | ifElse _ _ he _ _ _ _ ih ih' =>
    simp only [List.forall_mem_append, List.forall_mem_cons] at hts
    obtain ⟨-, -, hcondition, -, hthen, -, helse⟩ := hts
    exact Stmt.readsBack_ifElse (he.readsBack hcondition) (ih hthen) (ih' helse)
  | «while» _ _ he _ _ ih =>
    simp only [List.forall_mem_append, List.forall_mem_cons] at hts
    exact Stmt.readsBack_while (he.readsBack hts.2.2.1) (ih hts.2.2.2.2)
  | «for» _ _ hfirst hcond _ hinc _ _ ih =>
    simp only [List.forall_mem_append, List.forall_mem_cons] at hts
    obtain ⟨-, -, hclause, hcondition, -, hincrement, -, hbody⟩ := hts
    exact Stmt.readsBack_forLoop (hfirst.readsBack hclause) (hcond.readsBack hcondition)
      (hinc.readsBack hincrement) (ih hbody)
  | function ha _ hparams _ hcommas _ _ _ _ ih =>
    simp only [List.forall_mem_append, List.forall_mem_cons] at hts
    obtain ⟨hname, -, hlist, -, -, hbody, -⟩ := hts
    refine Stmt.readsBackFunction (hname.readsBack ha) (fun p hp => ?_) (forall_mem_body ih hbody)
    have hmem := hcommas.mem (List.mem_map_of_mem hp) (List.mem_singleton.2 rfl)
    exact (hlist p hmem).readsBack (hparams p hp)
  | funDeclaration _ _ ih => exact Stmt.readsBack_function (ih fun a ha => hts a (by simp [ha]))
  | varDeclaration h => exact h.readsBack hts
  | «class» _ hb hsuper _ _ _ _ ih =>
    simp only [List.forall_mem_append, List.forall_mem_cons] at hts
    obtain ⟨-, hname, hclause, -, hmembers, -⟩ := hts
    have hdecls := Member.forall_mem_entries (P := Stmt.ReadsBackFunction) fun m hm =>
      ih m hm (Member.forall_mem_tokens hmembers m hm)
    refine Stmt.readsBack_class (hname.readsBack hb) (fun r hr => ?_) (hdecls _) (hdecls _)
    obtain ⟨hmem, hkind⟩ := hsuper.mem_name r hr
    exact (hclause _ hmem).readsBack hkind
  | statement _ ih => exact ih hts

end Lox
