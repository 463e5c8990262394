/-!
# Tables of names

A table holds values under names, each name at most once, in the order in which the names were
first set. It is the contents of an environment, of an instance's fields, and of a class's
methods.

## Main definitions

* `Table.find? t n`: the value under `n`
* `Table.set t n a`: the table with `a` under `n`

## Main results

* `find?_set`: setting a name changes the look-up of that name alone
-/

namespace Lox

/-- Values under names, in the order in which the names were first set. -/
structure Table (α : Type) where
  /-- The names with their values. -/
  entries : List (String × α) := []
  deriving Repr, Inhabited

namespace Table

variable {α : Type}

/-- The table without names. -/
def empty : Table α := ⟨[]⟩

/-- The value of the first entry of a name. -/
def findEntry (name : String) : List (String × α) → Option α
  | [] => none
  | (n, a) :: rest => if name = n then some a else findEntry name rest

/-- The value under a name, if there is one. -/
def find? (t : Table α) (name : String) : Option α := findEntry name t.entries

/-- Whether a name is in the table. -/
def has (t : Table α) (name : String) : Bool := (t.find? name).isSome

/-- The names of the table. -/
def names (t : Table α) : List String := t.entries.map (·.1)

/-- The number of names. -/
def size (t : Table α) : Nat := t.entries.length

/-- Entries with `a` under `name`: an entry of that name is replaced where it stands, a new
one goes to the end. -/
def setEntry (name : String) (a : α) : List (String × α) → List (String × α)
  | [] => [(name, a)]
  | (n, b) :: rest => if name = n then (n, a) :: rest else (n, b) :: setEntry name a rest

/-- The table with `a` under `name`. -/
def set (t : Table α) (name : String) (a : α) : Table α := ⟨setEntry name a t.entries⟩

/-- The table of a list of entries, of which the later ones win. -/
def ofList (entries : List (String × α)) : Table α :=
  entries.foldl (fun t e => t.set e.1 e.2) empty

@[simp] theorem find?_empty (name : String) : (empty : Table α).find? name = none := rfl

theorem findEntry_setEntry (name m : String) (a : α) (entries : List (String × α)) :
    findEntry m (setEntry name a entries) = if m = name then some a else findEntry m entries := by
  induction entries with
  | nil => simp [setEntry, findEntry]
  | cons e rest ih =>
    obtain ⟨n, b⟩ := e
    by_cases h : name = n
    · subst h
      by_cases hm : m = name <;> simp [setEntry, findEntry, hm]
    · by_cases hm : m = n
      · subst hm
        simp [setEntry, findEntry, h, Ne.symm h]
      · simp [setEntry, findEntry, h, hm, ih]

/-- Setting a name changes the look-up of that name alone. -/
@[simp] theorem find?_set (t : Table α) (name m : String) (a : α) :
    (t.set name a).find? m = if m = name then some a else t.find? m :=
  findEntry_setEntry name m a t.entries

@[simp] theorem has_set (t : Table α) (name m : String) (a : α) :
    (t.set name a).has m = (decide (m = name) || t.has m) := by
  by_cases h : m = name <;> simp [has, h]

end Table

end Lox
