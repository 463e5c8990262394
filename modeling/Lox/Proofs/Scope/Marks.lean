import Lox.Scope.Locals

/-!
# Marks and recorded distances

Numbering gives the references of a tree the numbers from a first one on, one after the other.
So no two references of a program share a number, programs numbered one after the other share
none, and recording the findings of a program sets the distances of its own references alone.

## Main definitions

* `Numbers`: the numbers from one up to another

## Main results

* `numbers_numberAll`: the marks of a numbered program
* `distance?_record_of_not_mem`: recording keeps the distances of all other references
* `distance?_record_of_mem`: recording sets the distances that were found
-/

namespace Lox

/-- The numbers from `n` up to `m`. -/
def Numbers (n m : Nat) (marks : List Nat) : Prop := ∃ k, m = n + k ∧ marks = List.range' n k

namespace Numbers

variable {n m l : Nat} {as bs : List Nat}

theorem nil : Numbers n n [] := ⟨0, rfl, rfl⟩

theorem one : Numbers n (n + 1) [n] := ⟨1, rfl, rfl⟩

theorem append (ha : Numbers n m as) (hb : Numbers m l bs) : Numbers n l (as ++ bs) := by
  obtain ⟨i, rfl, rfl⟩ := ha
  obtain ⟨j, rfl, rfl⟩ := hb
  exact ⟨i + j, by omega, by rw [List.range'_append_1]⟩

theorem cons (ha : Numbers (n + 1) m as) : Numbers n m (n :: as) := one.append ha

theorem le (h : Numbers n m as) : n ≤ m := by
  obtain ⟨k, rfl, -⟩ := h
  omega

theorem mem_iff (h : Numbers n m as) {i : Nat} : i ∈ as ↔ n ≤ i ∧ i < m := by
  obtain ⟨k, rfl, rfl⟩ := h
  rw [List.mem_range'_1]

theorem nodup (h : Numbers n m as) : as.Nodup := by
  obtain ⟨k, rfl, rfl⟩ := h
  exact List.nodup_range'

end Numbers

/-! ## Numbering -/

section Numbering

variable {μ : Type}

namespace Expr

mutual

theorem numbers_number (n : Nat) : (e : Expr μ) → Numbers n (e.number n).2 (e.number n).1.marks
  | .literal _ => .nil
  | .variable _ => .one
  | .assign _ value => (numbers_number (n + 1) value).cons
  | .binary left _ _ right => (numbers_number n left).append (numbers_number _ right)
  | .logical left _ _ right => (numbers_number n left).append (numbers_number _ right)
  | .unary _ _ operand => numbers_number n operand
  | .ternary _ condition whenTrue whenFalse =>
    ((numbers_number n condition).append (numbers_number _ whenTrue)).append
      (numbers_number _ whenFalse)
  | .group inner => numbers_number n inner
  | .call callee _ arguments => (numbers_number n callee).append (numbers_numberAll _ arguments)
  | .field object _ => numbers_number n object
  | .setField object _ value => (numbers_number n object).append (numbers_number _ value)
  | .this _ => .one
  | .super _ _ => .one

theorem numbers_numberAll (n : Nat) :
    (es : List (Expr μ)) → Numbers n (numberAll n es).2 (marksAll (numberAll n es).1)
  | [] => .nil
  | e :: rest => (numbers_number n e).append (numbers_numberAll _ rest)

end

theorem numbers_number? (n : Nat) (e : Option (Expr μ)) :
    Numbers n (number? n e).2 (marks? (number? n e).1) := by
  cases e with
  | none => exact .nil
  | some e => exact numbers_number n e

end Expr

theorem Ref.numbers_number? (n : Nat) (r : Option (Ref μ)) :
    Numbers n (Ref.number? n r).2 ((Ref.number? n r).1.map (·.mark)).toList := by
  cases r with
  | none => exact .nil
  | some r => exact .one

namespace Stmt

mutual

theorem numbers_number (n : Nat) : (s : Stmt μ) → Numbers n (s.number n).2 (s.number n).1.marks
  | .expression value => value.numbers_number n
  | .print value => value.numbers_number n
  | .var _ initializer => Expr.numbers_number? n initializer
  | .block body => numbers_numberAll n body
  | .ifThen condition thenBranch =>
    (condition.numbers_number n).append (numbers_number _ thenBranch)
  | .ifElse condition thenBranch elseBranch =>
    ((condition.numbers_number n).append (numbers_number _ thenBranch)).append
      (numbers_number _ elseBranch)
  | .while condition body => (condition.numbers_number n).append (numbers_number _ body)
  | .function decl => numbers_numberFunction n decl
  | .return _ value => Expr.numbers_number? n value
  | .class _ superclass statics methods =>
    ((Ref.numbers_number? n superclass).append (numbers_numberFunctions _ statics)).append
      (numbers_numberFunctions _ methods)

theorem numbers_numberFunction (n : Nat) :
    (f : FunDecl μ) → Numbers n (numberFunction n f).2 (functionMarks (numberFunction n f).1)
  | .mk _ _ body => numbers_numberAll n body

theorem numbers_numberAll (n : Nat) :
    (ss : List (Stmt μ)) → Numbers n (numberAll n ss).2 (marksAll (numberAll n ss).1)
  | [] => .nil
  | s :: rest => (numbers_number n s).append (numbers_numberAll _ rest)

theorem numbers_numberFunctions (n : Nat) :
    (fs : List (FunDecl μ)) →
      Numbers n (numberFunctions n fs).2 (functionsMarks (numberFunctions n fs).1)
  | [] => .nil
  | f :: rest => (numbers_numberFunction n f).append (numbers_numberFunctions _ rest)

end

end Stmt

end Numbering

/-! ## Recording -/

namespace Locals

variable {l : Locals} {i : Occurrence} {d : Nat} {entries : List (Occurrence × Nat)}

theorem distance?_set_self (h : i < l.next) : (l.set i d).distance? i = some d := by
  have h : i < l.distances.size := h
  simp [distance?, set, h]

@[simp] theorem next_setAll : (l.setAll entries).next = l.next := by
  induction entries generalizing l with
  | nil => rfl
  | cons e rest ih => exact (ih (l := l.set e.1 e.2)).trans (next_set l e.1 e.2)

theorem distance?_setAll_of_not_mem (h : i ∉ entries.map (·.1)) :
    (l.setAll entries).distance? i = l.distance? i := by
  induction entries generalizing l with
  | nil => rfl
  | cons e rest ih =>
    simp only [List.map_cons, List.mem_cons, not_or] at h
    exact (ih (l := l.set e.1 e.2) h.2).trans (distance?_set_of_ne l e.2 h.1)

theorem distance?_setAll_of_mem (hi : i < l.next) (hmem : (i, d) ∈ entries)
    (hsame : ∀ d', (i, d') ∈ entries → d' = d) : (l.setAll entries).distance? i = some d := by
  induction entries generalizing l with
  | nil => cases hmem
  | cons e rest ih =>
    have hnext : i < (l.set e.1 e.2).next := by rw [next_set]; exact hi
    by_cases hrest : i ∈ rest.map (·.1)
    · obtain ⟨⟨j, d'⟩, hd, rfl⟩ := List.mem_map.1 hrest
      have hd' : d' = d := hsame d' (by simp [hd])
      exact ih (l := l.set e.1 e.2) hnext (hd' ▸ hd) fun d'' h => hsame d'' (by simp [h])
    · have he : e = (i, d) := by
        rcases List.mem_cons.1 hmem with h | h
        · exact h.symm
        · exact absurd (List.mem_map.2 ⟨_, h, rfl⟩) hrest
      subst he
      exact (distance?_setAll_of_not_mem (l := l.set i d) hrest).trans (distance?_set_self hi)

theorem next_reserve (l : Locals) (n : Nat) (h : l.next ≤ n) : (l.reserve n).next = n := by
  have hsize : (l.reserve n).next = l.next + (n - l.next) := by simp [next, reserve]
  exact hsize.trans (Nat.add_sub_of_le h)

theorem distance?_reserve (l : Locals) (n : Nat) : (l.reserve n).distance? i = l.distance? i := by
  by_cases h : i < l.distances.size
  · simp only [distance?, reserve, Array.getElem?_append_left h]
  · have hnone : l.distances[i]? = none := by simpa using h
    simp only [distance?, reserve, hnone, Option.join_none]
    rw [Array.getElem?_append_right (Nat.le_of_not_lt h), Array.getElem?_replicate]
    split <;> rfl

/-- Recording a program makes room for its references. -/
theorem next_record {r : Resolved} (h : l.next ≤ r.next) : (l.record r).next = r.next :=
  next_setAll.trans (l.next_reserve r.next h)

/-- Recording keeps the distances of references that the findings do not name. -/
theorem distance?_record_of_not_mem {r : Resolved} (h : i ∉ r.entries.map (·.1)) :
    (l.record r).distance? i = l.distance? i :=
  (distance?_setAll_of_not_mem h).trans (l.distance?_reserve r.next)

/-- Recording sets a distance that was found, if only one was. -/
theorem distance?_record_of_mem {r : Resolved} (hnext : l.next ≤ r.next) (hi : i < r.next)
    (hmem : (i, d) ∈ r.entries) (hsame : ∀ d', (i, d') ∈ r.entries → d' = d) :
    (l.record r).distance? i = some d :=
  distance?_setAll_of_mem (by rw [l.next_reserve r.next hnext]; exact hi) hmem hsame

end Locals

end Lox
