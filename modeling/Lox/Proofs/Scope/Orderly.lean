import Lox.Proofs.Scope.Survey

/-!
# Names that are used after their declarations

A scope is in order if no name is used in it before the end of its declaration: not before the
statement that declares it, and not in the initializer of a variable. In a program whose local
scopes are in order, every local name that is used has ended in all open scopes that declare it,
so whether it is declared there at all does not depend on when one looks.

## Main definitions

* `Expr.uses`, `Stmt.uses`: the names that are read or assigned in a tree
* `Stmt.inOrder`: statements of one scope that are in order
* `Stmt.orderly`, `Stmt.orderlyAll`: trees whose local scopes are in order
* `Context.Ends`: a name has ended wherever it is declared
* `Site.Orderly`: the names that a node uses have ended

## Main results

* `Visited.orderly`: the walk over an orderly program comes to orderly sites only
-/

namespace Lox

section Uses

variable {μ : Type}

namespace Expr

mutual

/-- The names of the variables that an expression reads or assigns. -/
def uses : Expr μ → List String
  | .literal _ | .this _ | .super .. => []
  | .variable r => [r.token.lexeme]
  | .assign r e => r.token.lexeme :: e.uses
  | .binary a _ _ b | .logical a _ _ b | .setField a _ b => a.uses ++ b.uses
  | .unary _ _ e | .group e | .field e _ => e.uses
  | .ternary _ a b c => a.uses ++ (b.uses ++ c.uses)
  | .call e _ es => e.uses ++ usesAll es

/-- The names of the variables that expressions read or assign. -/
def usesAll : List (Expr μ) → List String
  | [] => []
  | e :: rest => e.uses ++ usesAll rest

end

/-- The names of the variables that an expression that may be absent reads or assigns. -/
def uses? : Option (Expr μ) → List String
  | none => []
  | some e => e.uses

theorem mem_usesAll {es : List (Expr μ)} {e : Expr μ} (he : e ∈ es) {n : String} (hn : n ∈ e.uses) :
    n ∈ usesAll es := by
  induction es with
  | nil => cases he
  | cons e' rest ih =>
    rcases List.mem_cons.1 he with rfl | he
    · exact List.mem_append_left _ hn
    · exact List.mem_append_right _ (ih he)

end Expr

namespace Stmt

mutual

/-- The names of the variables that a statement reads or assigns. -/
def uses : Stmt μ → List String
  | .expression e | .print e => e.uses
  | .var _ o | .return _ o => Expr.uses? o
  | .block ss => usesAll ss
  | .ifThen e s | .while e s => e.uses ++ s.uses
  | .ifElse e s r => e.uses ++ (s.uses ++ r.uses)
  | .function f => functionUses f
  | .class _ o ss ms =>
    o.toList.map (·.token.lexeme) ++ (functionsUses ss ++ functionsUses ms)

/-- The names of the variables that the body of a function reads or assigns. -/
def functionUses : FunDecl μ → List String
  | .mk _ _ ss => usesAll ss

/-- The names of the variables that statements read or assign. -/
def usesAll : List (Stmt μ) → List String
  | [] => []
  | s :: rest => s.uses ++ usesAll rest

/-- The names of the variables that the bodies of functions read or assign. -/
def functionsUses : List (FunDecl μ) → List String
  | [] => []
  | f :: rest => functionUses f ++ functionsUses rest

end

theorem mem_functionsUses {fs : List (FunDecl μ)} {f : FunDecl μ} (hf : f ∈ fs) {n : String}
    (hn : n ∈ functionUses f) : n ∈ functionsUses fs := by
  induction fs with
  | nil => cases hf
  | cons f' rest ih =>
    rcases List.mem_cons.1 hf with rfl | hf
    · exact List.mem_append_left _ hn
    · exact List.mem_append_right _ (ih hf)

/-- The names that a statement uses before the end of its own declaration. -/
def early : Stmt μ → List String
  | .var _ o => Expr.uses? o
  | _ => []

/-- Whether no name is used in the statements of a scope before the end of its declaration. -/
def inOrder : List (Stmt μ) → Bool
  | [] => true
  | s :: rest =>
    (declaredNames [s]).all (· ∉ s.early) && (declaredNames rest).all (· ∉ s.uses) && inOrder rest

theorem inOrder_cons {s : Stmt μ} {rest : List (Stmt μ)} :
    inOrder (s :: rest) = true ↔ (∀ n ∈ declaredNames [s], n ∉ s.early) ∧
      (∀ n ∈ declaredNames rest, n ∉ s.uses) ∧ inOrder rest = true := by
  simp [inOrder, and_assoc]

theorem not_mem_declaredNames {s : Stmt μ} {n : String} (h : ∀ t ∈ s.declared?, t.lexeme ≠ n) :
    n ∉ declaredNames [s] := by
  intro hn
  obtain ⟨t, ht, hlexeme⟩ := mem_declaredNames_singleton.1 hn
  exact h t ht hlexeme

theorem not_mem_declaredNames_cons {s : Stmt μ} {rest : List (Stmt μ)} {n : String}
    (hs : n ∉ declaredNames [s]) (hrest : n ∉ declaredNames rest) :
    n ∉ declaredNames (s :: rest) := by
  rw [declaredNames_cons, List.mem_append, not_or]
  exact ⟨hs, hrest⟩

mutual

/-- Whether the local scopes of a statement are in order. -/
def orderly : Stmt μ → Bool
  | .block ss => inOrder ss && orderlyAll ss
  | .ifThen _ s | .while _ s => s.orderly
  | .ifElse _ s r => s.orderly && r.orderly
  | .function f => orderlyFunction f
  | .class _ _ ss ms => orderlyFunctions ss && orderlyFunctions ms
  | .expression _ | .print _ | .var .. | .return .. => true

/-- Whether the local scopes of a function are in order. -/
def orderlyFunction : FunDecl μ → Bool
  | .mk _ _ ss => inOrder ss && orderlyAll ss

/-- Whether the local scopes of statements are in order. -/
def orderlyAll : List (Stmt μ) → Bool
  | [] => true
  | s :: rest => s.orderly && orderlyAll rest

/-- Whether the local scopes of functions are in order. -/
def orderlyFunctions : List (FunDecl μ) → Bool
  | [] => true
  | f :: rest => orderlyFunction f && orderlyFunctions rest

end

theorem orderly_of_branch {s b : Stmt μ} (h : s.orderly = true) (hb : b ∈ s.branch?) :
    b.orderly = true := by
  cases s with
  | ifThen | «while» =>
    obtain rfl := Option.mem_some.1 hb
    exact h
  | ifElse =>
    obtain rfl := Option.mem_some.1 hb
    exact (Bool.and_eq_true_iff.1 h).1
  | _ => cases hb

theorem orderlyFunctions_iff {fs : List (FunDecl μ)} :
    orderlyFunctions fs = true ↔ ∀ f ∈ fs, orderlyFunction f = true := by
  induction fs with
  | nil => simp [orderlyFunctions]
  | cons f rest ih => simp [orderlyFunctions, ih]

end Stmt

end Uses

namespace Node

/-- The names of the variables that a node reads or assigns. -/
def uses : Node → List String
  | .expression e => e.uses
  | .statement s => s.uses
  | .body ss => Stmt.usesAll ss
  | .function _ f => Stmt.functionUses f

/-- Whether the local scopes of a node are in order. -/
def orderly : Node → Bool
  | .expression _ => true
  | .statement s => s.orderly
  | .body ss => Stmt.orderlyAll ss
  | .function _ f => Stmt.orderlyFunction f

/-- Whether a node is in order in the scope that it stands in. -/
def inOrder : Node → Bool
  | .expression _ | .function .. => true
  | .statement s => Stmt.inOrder [s]
  | .body ss => Stmt.inOrder ss

end Node

/-! ## What is used below a site -/

theorem Expr.uses_subset_of_operand {e a : Expr Occurrence} (ha : a ∈ e.operands) :
    a.uses ⊆ e.uses := by
  intro n hn
  cases e with
  | call =>
    rcases List.mem_cons.1 ha with rfl | ha
    · exact List.mem_append_left _ hn
    · exact List.mem_append_right _ (mem_usesAll ha hn)
  | literal | «variable» | this | super => cases ha
  | _ =>
    simp only [operands, List.mem_cons, List.not_mem_nil, or_false] at ha
    rcases ha with rfl | rfl | rfl <;> simp [uses, hn]

theorem Stmt.uses_subset_of_operand {s : Stmt Occurrence} {e : Expr Occurrence}
    (he : e ∈ s.operands) : e.uses ⊆ s.uses := by
  cases s with
  | expression | print =>
    obtain rfl := List.mem_singleton.1 he
    exact List.Subset.refl _
  | ifThen | ifElse | «while» =>
    obtain rfl := List.mem_singleton.1 he
    exact List.subset_append_left _ _
  | «return» =>
    obtain rfl := Option.mem_toList.1 he
    exact List.Subset.refl _
  | var | block | function | «class» => cases he

theorem Stmt.uses_subset_of_branch {s b : Stmt Occurrence} (hb : b ∈ s.branch?) :
    b.uses ⊆ s.uses := by
  intro n hn
  cases s with
  | ifThen | «while» =>
    obtain rfl := Option.mem_some.1 hb
    exact List.mem_append_right _ hn
  | ifElse =>
    obtain rfl := Option.mem_some.1 hb
    exact List.mem_append_right _ (List.mem_append_left _ hn)
  | _ => cases hb

/-- What is used below a site is used at the site. -/
theorem Site.Below.uses_subset {p q : Site} (h : p.Below q) : q.node.uses ⊆ p.node.uses := by
  intro n hn
  cases h with
  | operand ha => exact Expr.uses_subset_of_operand ha hn
  | value he => exact Stmt.uses_subset_of_operand he hn
  | branch hb => exact Stmt.uses_subset_of_branch hb hn
  | initializer | block | function => exact hn
  | elseBranch => exact List.mem_append_right _ (List.mem_append_right _ hn)
  | superclass => exact List.mem_append_left _ hn
  | method _ _ _ _ _ hf =>
    exact List.mem_append_right _ (List.mem_append_right _ (Stmt.mem_functionsUses hf hn))
  | static _ _ _ _ _ hf =>
    exact List.mem_append_right _ (List.mem_append_left _ (Stmt.mem_functionsUses hf hn))
  | first => exact List.mem_append_left _ hn
  | rest => exact List.mem_append_right _ hn
  | body _ _ _ f =>
    cases f
    exact hn

/-! ## Names that have ended -/

/-- Declaring a name changes the innermost scope only. -/
theorem Context.tail_declared (c : Context) (t : Option Token) :
    (c.declared t).scopes.tail = c.scopes.tail := by
  cases t with
  | none => rfl
  | some t =>
    cases hc : c.scopes with
    | nil => simp [declared, declare, define, hc]
    | cons scope outer =>
      simp [declared, declare, define, scopes_setName_cons (scopes_setName_cons hc)]

/-- A name has ended in scopes that declare it. -/
def Ends (name : String) (scopes : List Scope) (openers : List Opener) : Prop :=
  List.Forall₂ (fun scope o => name ∈ o.names → scope.find? name = some true) scopes openers

namespace Ends

variable {name : String} {c : Context} {openers : List Opener} {t : Token}

theorem tail {scopes : List Scope} (h : Ends name scopes openers) :
    Ends name scopes.tail openers.tail := by
  cases h with
  | nil => exact .nil
  | cons _ h => exact h

/-- Setting another name. -/
theorem setName (h : Ends name c.scopes openers) (hne : name ≠ t.lexeme) (ended : Bool) :
    Ends name (c.setName t.lexeme ended).scopes openers := by
  cases hc : c.scopes with
  | nil => rwa [Context.scopes_setName_nil hc]
  | cons scope outer =>
    rw [hc] at h
    rw [Context.scopes_setName_cons hc]
    cases h with
    | cons hscope h =>
      refine .cons (fun hn => ?_) h
      rw [Table.find?_set, if_neg hne]
      exact hscope hn

/-- Declaring a name ends it. -/
theorem declared_self (h : Ends name c.scopes.tail openers.tail)
    (hlength : c.scopes.length = openers.length) (ht : t.lexeme = name) :
    Ends name (c.declared (some t)).scopes openers := by
  cases hc : c.scopes with
  | nil =>
    rw [hc] at hlength
    obtain rfl := List.eq_nil_of_length_eq_zero hlength.symm
    simp only [Context.declared, Context.declare, Context.define, Context.scopes_setName_nil hc, hc]
    exact .nil
  | cons scope outer =>
    rw [hc] at h hlength
    cases openers with
    | nil => cases hlength
    | cons o os =>
      simp only [Context.declared, Context.declare, Context.define,
        Context.scopes_setName_cons (Context.scopes_setName_cons hc)]
      refine .cons (fun _ => ?_) h
      rw [Table.find?_set, if_pos ht.symm]

/-- Declaring a name ends it and no other. -/
theorem declared (h : Ends name c.scopes.tail openers.tail)
    (hlength : c.scopes.length = openers.length) (t : Option Token)
    (hother : (∀ t' ∈ t, t'.lexeme ≠ name) → Ends name c.scopes openers) :
    Ends name (c.declared t).scopes openers := by
  cases t with
  | none => exact hother (by simp)
  | some t =>
    by_cases ht : t.lexeme = name
    · exact h.declared_self hlength ht
    · exact ((hother (by simpa using ht)).setName (Ne.symm ht) _).setName (Ne.symm ht) _

end Ends

namespace Ends

variable {name : String} {c : Context} {openers : List Opener}

theorem of_nil (hlength : c.scopes.length = openers.length) (h : openers = []) :
    Ends name c.scopes openers := by
  subst h
  rw [List.eq_nil_of_length_eq_zero hlength]
  exact .nil

/-- Declaring names ends them and no others. -/
theorem foldl (ps : List Token) (h : Ends name c.scopes.tail openers.tail)
    (hlength : c.scopes.length = openers.length)
    (hother : name ∉ ps.map (·.lexeme) → Ends name c.scopes openers) :
    Ends name (ps.foldl (fun c p => (c.declare p).define p) c).scopes openers := by
  induction ps generalizing c with
  | nil => exact hother (by simp)
  | cons p rest ih =>
    refine ih (c := c.declared (some p)) ?_ (by simpa [Context.declared, Context.declare,
      Context.define] using hlength) fun hrest => h.declared hlength (some p) fun hp => hother ?_
    · rwa [Context.tail_declared]
    · simpa [hrest] using fun heq => hp p rfl heq.symm

/-- Opening the scopes of a class. -/
theorem enterClass (h : Ends name c.scopes openers) (m : Members)
    (superclass : Option (Ref Occurrence)) :
    Ends name (c.enterClass superclass).scopes (m.openers superclass ++ openers) := by
  have hword : ∀ word : String, name ∈ [word] →
      (Table.empty.set word true).find? name = some true := by
    intro word hn
    rw [Table.find?_set, if_pos (List.mem_singleton.1 hn)]
  cases superclass with
  | none => exact .cons (hword _) h
  | some r => exact .cons (hword _) (.cons (hword _) h)

/-- Opening the scope of a function, which declares its parameters first. -/
theorem enterFunction (h : Ends name c.scopes openers) (kind : FunctionKind)
    (f : FunDecl Occurrence) (hbody : name ∉ Stmt.declaredNames f.body) :
    Ends name (c.enterFunction kind f.params).scopes (.function f :: openers) := by
  refine foldl f.params (show Ends name _ (Opener.function f :: openers).tail from h)
    (by simpa using h.length_eq) fun hparams => .cons (fun hn => ?_) h
  rcases List.mem_append.1 hn with hn | hn
  · exact absurd hn hparams
  · exact absurd hn hbody

end Ends

/-! ## Orderly sites -/

namespace Site

/-- A node that uses no name before the end of its declaration. -/
structure Orderly (p : Site) : Prop where
  /-- A name that is used has ended in all scopes around the innermost one. -/
  outer : ∀ n ∈ p.node.uses, Ends n p.context.scopes.tail p.openers.tail
  /-- It has ended in all scopes unless the node itself declares it. -/
  ended : ∀ n ∈ p.node.uses, n ∉ p.node.names → Ends n p.context.scopes p.openers
  /-- The node is in order in the scope that it stands in. -/
  inOrder : p.openers ≠ [] → p.node.inOrder = true
  /-- The local scopes of the node are in order. -/
  orderly : p.node.orderly = true

namespace Orderly

variable {p q : Site}

/-- A node that declares nothing itself, in a context in which the names that it uses have
ended. -/
theorem of_ended (h : ∀ n ∈ q.node.uses, Ends n q.context.scopes q.openers)
    (hinOrder : q.node.inOrder = true) (horderly : q.node.orderly = true) : q.Orderly where
  outer n hn := (h n hn).tail
  ended n hn _ := h n hn
  inOrder _ := hinOrder
  orderly := horderly

section

variable {c : Context} {os : List Opener}

theorem expression {e : Expr Occurrence} (h : ∀ n ∈ e.uses, Ends n c.scopes os) :
    Orderly ⟨c, os, .expression e⟩ :=
  of_ended h rfl rfl

/-- A statement that declares nothing. -/
theorem statement {s : Stmt Occurrence} (h : ∀ n ∈ s.uses, Ends n c.scopes os)
    (hs : s.declared? = none) (horderly : s.orderly = true) : Orderly ⟨c, os, .statement s⟩ :=
  of_ended h (by simp [Node.inOrder, Stmt.inOrder, Stmt.declaredNames, hs]) horderly

/-- A function in a context in which the names that it uses have ended. -/
theorem function {kind : FunctionKind} {f : FunDecl Occurrence}
    (h : ∀ n ∈ Stmt.functionUses f, Ends n c.scopes os) (hf : Stmt.orderlyFunction f = true) :
    Orderly ⟨c, os, .function kind f⟩ :=
  of_ended h rfl hf

/-- The body of a scope that is in order, where the names that it uses have ended around it. -/
theorem body {ss : List (Stmt Occurrence)} {o : Opener}
    (h : ∀ n ∈ Stmt.usesAll ss, Ends n c.scopes.tail os)
    (hended : ∀ n ∈ Stmt.usesAll ss, n ∉ Stmt.declaredNames ss → Ends n c.scopes (o :: os))
    (hss : Stmt.inOrder ss = true ∧ Stmt.orderlyAll ss = true) : Orderly ⟨c, o :: os, .body ss⟩ :=
  ⟨h, hended, fun _ => hss.1, hss.2⟩

end

/-- A statement that declares nothing uses names that have ended. -/
theorem ended_statement {c : Context} {os : List Opener} {s : Stmt Occurrence}
    (hp : Orderly ⟨c, os, .statement s⟩) (hnone : s.declared? = none) {n : String}
    (hn : n ∈ s.uses) : Ends n c.scopes os :=
  hp.ended n hn (Stmt.not_mem_declaredNames (by simp [hnone]))

/-- What a statement declares has ended after it, as have all other names that it uses. -/
theorem ended_declared {c : Context} {os : List Opener} {s : Stmt Occurrence}
    (hp : Orderly ⟨c, os, .statement s⟩) (hlength : c.scopes.length = os.length) {n : String}
    (hn : n ∈ s.uses) : Ends n (c.declared s.declared?).scopes os :=
  (hp.outer n hn).declared hlength _ fun hother =>
    hp.ended n hn (Stmt.not_mem_declaredNames hother)

/-- The initializer of a variable, which does not use that variable in a local scope. -/
theorem initializer {c : Context} {os : List Opener} {name : Token} {e : Expr Occurrence}
    (hp : Orderly ⟨c, os, .statement (.var name (some e))⟩)
    (hlength : c.scopes.length = os.length) :
    Orderly ⟨c.declare name, os, .expression e⟩ := by
  refine expression fun n hn => ?_
  by_cases hos : os = []
  · exact .of_nil (by simpa [Context.declare] using hlength) hos
  · have hne : n ≠ name.lexeme := by
      rintro rfl
      exact (Stmt.inOrder_cons.1 (hp.inOrder hos)).1 _ (.head _) hn
    refine (hp.ended n hn ?_).setName hne _
    simpa [Node.names, Stmt.declaredNames, Stmt.declared?] using hne

/-- The first of the statements of a scope. The later ones declare no name that it uses. -/
theorem first {c : Context} {os : List Opener} {s : Stmt Occurrence} {ss : List (Stmt Occurrence)}
    (hp : Orderly ⟨c, os, .body (s :: ss)⟩) (hlength : c.scopes.length = os.length) :
    Orderly ⟨c, os, .statement s⟩ := by
  have horderly : s.orderly = true ∧ Stmt.orderlyAll ss = true := by
    simpa [Node.orderly, Stmt.orderlyAll] using hp.orderly
  refine ⟨fun n hn => hp.outer n (List.mem_append_left _ hn), fun n hn hself => ?_,
    fun hos => ?_, horderly.1⟩
  · by_cases hos : os = []
    · exact .of_nil hlength hos
    · refine hp.ended n (List.mem_append_left _ hn) (Stmt.not_mem_declaredNames_cons hself ?_)
      exact fun hrest => (Stmt.inOrder_cons.1 (hp.inOrder hos)).2.1 n hrest hn
  · obtain ⟨hearly, -, -⟩ := Stmt.inOrder_cons.1 (hp.inOrder hos)
    exact Stmt.inOrder_cons.2 ⟨hearly, fun _ hn => absurd hn List.not_mem_nil, rfl⟩

/-- The statements of a scope after the first, whose declaration has ended. -/
theorem rest {c : Context} {os : List Opener} {s : Stmt Occurrence} {ss : List (Stmt Occurrence)}
    (hp : Orderly ⟨c, os, .body (s :: ss)⟩) (hlength : c.scopes.length = os.length) :
    Orderly ⟨c.declared s.declared?, os, .body ss⟩ := by
  have horderly : s.orderly = true ∧ Stmt.orderlyAll ss = true := by
    simpa [Node.orderly, Stmt.orderlyAll] using hp.orderly
  refine ⟨fun n hn => ?_, fun n hn hrest => ?_,
    fun hos => (Stmt.inOrder_cons.1 (hp.inOrder hos)).2.2, horderly.2⟩
  · rw [Context.tail_declared]
    exact hp.outer n (List.mem_append_right _ hn)
  · refine (hp.outer n (List.mem_append_right _ hn)).declared hlength _ fun hother => ?_
    exact hp.ended n (List.mem_append_right _ hn)
      (Stmt.not_mem_declaredNames_cons (Stmt.not_mem_declaredNames hother) hrest)

/-- The sites below an orderly site are orderly. -/
theorem child (hp : p.Orderly) (hs : p.Settled) (hq : q ∈ p.children) : q.Orderly := by
  have hlength := hs.context.names.length_eq
  have hgenuine := hs.genuine
  have horderly := hp.orderly
  have hbelow := mem_children_iff.1 hq
  have huses := hbelow.uses_subset
  cases hbelow with
  | operand => exact .expression fun n hn => hp.ended n (huses hn) List.not_mem_nil
  | value he =>
    exact .expression fun n hn => hp.ended_statement (Stmt.declared?_of_operand he) (huses hn)
  | initializer => exact hp.initializer hlength
  | block c os ss =>
    have hended := fun n hn => hp.ended_statement (n := n) rfl (huses hn)
    exact .body hended (fun n hn hnot => .cons (fun h => absurd h hnot) (hended n hn))
      (by simpa [Node.orderly, Stmt.orderly] using horderly)
  | branch hb =>
    exact .statement
      (fun n hn => hp.ended_statement (Stmt.declared?_of_branch hb) (huses hn))
      (hgenuine.branch hb).2 (Stmt.orderly_of_branch horderly hb)
  | elseBranch c os e a b =>
    obtain ⟨-, ha, -, hanone, hbnone⟩ := hgenuine
    have hbranches : a.orderly = true ∧ b.orderly = true := by
      simpa [Node.orderly, Stmt.orderly] using horderly
    rw [Stmt.resolve_fst c a ha, hanone]
    exact .statement (fun n hn => hp.ended_statement rfl (huses hn)) hbnone hbranches.2
  | function => exact .function (fun n hn => hp.ended_declared hlength (huses hn)) horderly
  | superclass => exact .expression fun n hn => hp.ended_declared hlength (huses hn)
  | method c os name r statics hf =>
    have horderly := (Bool.and_eq_true_iff.1 horderly).2
    exact .function (fun n hn => (hp.ended_declared hlength (huses hn)).enterClass _ r)
      (Stmt.orderlyFunctions_iff.1 horderly _ hf)
  | static c os name r methods hf =>
    have horderly := (Bool.and_eq_true_iff.1 horderly).1
    exact .function (fun n hn => (hp.ended_declared hlength (huses hn)).enterClass _ r)
      (Stmt.orderlyFunctions_iff.1 horderly _ hf)
  | first => exact hp.first hlength
  | rest c os s ss =>
    rw [Stmt.resolve_fst c s hgenuine.1]
    exact hp.rest hlength
  | body c os kind f =>
    have hended := fun n hn => hp.ended n (huses hn) List.not_mem_nil
    obtain ⟨inner, hinner, -⟩ := c.scopes_enterFunction kind f.params
    obtain ⟨name, params, ss⟩ := f
    refine .body (fun n hn => ?_) (fun n hn hnot => (hended n hn).enterFunction kind _ hnot)
      (by simpa [Node.orderly, Stmt.orderlyFunction, FunDecl.body] using horderly)
    rw [hinner]
    exact hended n hn

end Orderly

end Site

/-- The walk over an orderly program comes to orderly sites only. -/
theorem Visited.orderly {body : List (Stmt Occurrence)} {p : Site} (h : Visited body p)
    (hbody : Stmt.GenuineAll body) (horderly : Stmt.orderlyAll body = true) : p.Orderly := by
  induction h with
  | root => exact ⟨fun _ _ => .nil, fun _ _ _ => .nil, fun h => absurd rfl h, horderly⟩
  | child h hq ih => exact ih.child (h.settled hbody) hq

end Lox
