import Lox.Scope.Resolve
import Lox.Syntax.Occurrence

/-!
# Recorded distances

The distances of all references of a session, by the number of the occurrence. Programs are
numbered one after the other, so recording the distances of one leaves those of the earlier
ones as they were.

## Main definitions

* `Locals`, with `Locals.distance?`
* `Locals.record`: the distances after one more program
* `Resolved`: a numbered program with its findings
-/

namespace Lox

/-- The distances of references by occurrence. -/
structure Locals where
  /-- For each occurrence so far its distance, if it has one. -/
  distances : Array (Option Nat) := #[]
  deriving DecidableEq, Repr

namespace Locals

/-- The number of occurrences so far: the next occurrence. -/
def next (l : Locals) : Occurrence := l.distances.size

/-- The distance of a reference, if one was recorded. -/
def distance? (l : Locals) (i : Occurrence) : Option Nat := (l.distances[i]?).join

/-- The distances with one more set. -/
def set (l : Locals) (i : Occurrence) (d : Nat) : Locals := ⟨l.distances.setIfInBounds i (some d)⟩

/-- The distances with room for occurrences below `n`. -/
def reserve (l : Locals) (n : Occurrence) : Locals :=
  ⟨l.distances ++ Array.replicate (n - l.next) none⟩

/-- The distances with those of a list of entries. -/
def setAll (l : Locals) (entries : List (Occurrence × Nat)) : Locals :=
  entries.foldl (fun l e => l.set e.1 e.2) l

@[simp] theorem next_set (l : Locals) (i : Occurrence) (d : Nat) : (l.set i d).next = l.next := by
  simp [next, set]

/-- Setting a distance changes that of no other occurrence. -/
theorem distance?_set_of_ne (l : Locals) {i j : Occurrence} (d : Nat) (h : j ≠ i) :
    (l.set i d).distance? j = l.distance? j := by
  simp [distance?, set, Array.getElem?_setIfInBounds_ne (Ne.symm h)]

end Locals

/-- A program with numbers, the next number, and what resolving it finds. -/
structure Resolved where
  /-- The statements. -/
  body : List (Stmt Occurrence)
  /-- The number after the last. -/
  next : Occurrence
  /-- The findings. -/
  findings : List (Finding Occurrence)

namespace Resolved

/-- A program numbered from `n` on and resolved. -/
def ofProgram (n : Occurrence) (body : List (Stmt Unit)) : Resolved :=
  let numbered := Stmt.numberAll n body
  ⟨numbered.1, numbered.2, resolve numbered.1⟩

/-- A program as far as it was resolved. -/
def upTo (n : Nat) (r : Resolved) : Resolved := { r with findings := r.findings.take n }

/-- The distances found. -/
def entries (r : Resolved) : List (Occurrence × Nat) := r.findings.filterMap Finding.entry?

/-- The misuses found. -/
def reports (r : Resolved) : List Report := r.findings.filterMap Finding.report?

end Resolved

/-- The distances after one more program. -/
def Locals.record (l : Locals) (r : Resolved) : Locals := (l.reserve r.next).setAll r.entries

end Lox
