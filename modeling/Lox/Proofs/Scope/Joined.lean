import Lox.Proofs.Scope.Survey

/-!
# A program after another

No scope is open between two statements of a program, so what the resolver finds in a program is
what it finds in its parts, and recording it is recording its parts one after the other.

## Main results

* `Stmt.resolveAll_root`: no scope is open after statements of a program
* `Resolved.ofProgram_append`: a program in two parts
* `Locals.record_append`: its distances
-/

namespace Lox

namespace Stmt

theorem numberAll_append {μ : Type} (n : Occurrence) (ss rest : List (Stmt μ)) :
    numberAll n (ss ++ rest) =
      ((numberAll n ss).1 ++ (numberAll (numberAll n ss).2 rest).1,
        (numberAll (numberAll n ss).2 rest).2) := by
  induction ss generalizing n with
  | nil => rfl
  | cons s ss ih => simp only [List.cons_append, numberAll, ih]

theorem resolveAll_append {μ : Type} (c : Context) (ss rest : List (Stmt μ)) :
    resolveAll c (ss ++ rest) =
      ((resolveAll (resolveAll c ss).1 rest).1,
        (resolveAll c ss).2 ++ (resolveAll (resolveAll c ss).1 rest).2) := by
  induction ss generalizing c with
  | nil => rfl
  | cons s ss ih => simp only [List.cons_append, resolveAll, ih, List.append_assoc]

/-- No scope is open after statements of a program. -/
theorem resolveAll_root {μ : Type} {ss : List (Stmt μ)} (h : GenuineAll ss) :
    (resolveAll {} ss).1 = {} := by
  induction ss with
  | nil => rfl
  | cons s ss ih =>
    have hstep : (s.resolve {}).1 = {} := by
      rw [resolve_fst {} s h.1]
      cases s.declared? <;> rfl
    simp only [resolveAll, hstep, ih h.2]

end Stmt

namespace Resolved

variable {a b : List (Stmt Unit)}

/-- A program in two parts. -/
theorem ofProgram_append (n : Occurrence) (ha : Stmt.GenuineAll a) :
    ofProgram n (a ++ b) =
      ⟨(ofProgram n a).body ++ (ofProgram (ofProgram n a).next b).body,
        (ofProgram (ofProgram n a).next b).next,
        (ofProgram n a).findings ++ (ofProgram (ofProgram n a).next b).findings⟩ := by
  have hroot := Stmt.resolveAll_root (Stmt.genuineAll_numberAll n a ha)
  simp only [ofProgram, Stmt.numberAll_append, resolve, Stmt.resolveAll_append, hroot]

end Resolved

namespace Locals

variable {l : Locals}

theorem reserve_reserve {n m : Occurrence} (hn : l.next ≤ n) (hm : n ≤ m) :
    (l.reserve n).reserve m = l.reserve m := by
  have hnext : (l.reserve n).next = n := l.next_reserve n hn
  have hpad : ∀ a b c : Nat, a ≤ b → b ≤ c → b - a + (c - b) = c - a := by omega
  rw [reserve, hnext, reserve, reserve, Array.append_assoc, Array.replicate_append_replicate,
    hpad _ _ _ hn hm]

theorem reserve_set {n i : Occurrence} {d : Nat} (hi : i < l.next) :
    (l.set i d).reserve n = (l.reserve n).set i d := by
  have hi : i < l.distances.size := hi
  rw [reserve, next_set]
  simp only [set, reserve, Array.setIfInBounds, Array.size_append, hi, dif_pos,
    Nat.lt_add_right _ hi, Array.set_append_left]

theorem reserve_setAll {n : Occurrence} {entries : List (Occurrence × Nat)}
    (h : ∀ x ∈ entries, x.1 < l.next) :
    (l.setAll entries).reserve n = (l.reserve n).setAll entries := by
  induction entries generalizing l with
  | nil => rfl
  | cons x rest ih =>
    have hx := reserve_set (n := n) (d := x.2) (h x (by simp))
    have hrest := ih (l := l.set x.1 x.2) fun y hy => by
      rw [next_set]
      exact h y (by simp [hy])
    show ((l.set x.1 x.2).setAll rest).reserve n = ((l.reserve n).set x.1 x.2).setAll rest
    rw [hrest, hx]

theorem setAll_append (es fs : List (Occurrence × Nat)) :
    l.setAll (es ++ fs) = (l.setAll es).setAll fs :=
  List.foldl_append

/-- The distances of a program in two parts are those of one after those of the other. -/
theorem record_append (l : Locals) {a b : List (Stmt Unit)} (ha : Stmt.GenuineAll a) :
    l.record (Resolved.ofProgram l.next (a ++ b)) =
      (l.record (Resolved.ofProgram l.next a)).record
        (Resolved.ofProgram (Resolved.ofProgram l.next a).next b) := by
  have hle := (numbers_ofProgram l.next a).le
  have hle' := (numbers_ofProgram (Resolved.ofProgram l.next a).next b).le
  have hentries : ∀ x ∈ (Resolved.ofProgram l.next a).entries,
      x.1 < (l.reserve (Resolved.ofProgram l.next a).next).next := fun x hx => by
    rw [next_reserve _ _ hle]
    exact ((numbers_ofProgram l.next a).mem_iff.1 (mem_marksAll_of_mem_entries hx)).2
  have hsplit : (Resolved.ofProgram l.next (a ++ b)).entries =
      (Resolved.ofProgram l.next a).entries ++
        (Resolved.ofProgram (Resolved.ofProgram l.next a).next b).entries := by
    rw [Resolved.ofProgram_append l.next ha]
    exact List.filterMap_append
  have hnext : (Resolved.ofProgram l.next (a ++ b)).next =
      (Resolved.ofProgram (Resolved.ofProgram l.next a).next b).next := by
    rw [Resolved.ofProgram_append l.next ha]
  rw [record, record, record, hsplit, hnext, setAll_append, ← reserve_reserve hle hle',
    reserve_setAll hentries]

end Locals

end Lox
