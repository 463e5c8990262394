import Lox.Scope.Locals

/-!
# Distances by identity

The distances are kept in a table under the identities of the nodes of references. A node has its
identity as long as it is alive, and no other live node has the same one; but when the node is
gone, its identity may become that of another. An entry of the table holds its node, which
therefore stays alive.

## Main definitions

* `Identity`
* `Nodes`: the nodes that are alive, and the table
* `Nodes.record`, `Nodes.distance?`: setting an entry of the table and looking one up
* `Nodes.Makes`: nodes are made, and others go
* `Nodes.Resolves`: a program is parsed and resolved
-/

namespace Lox

/-- What tells apart the nodes that are alive. -/
structure Identity where
  /-- Its number. -/
  index : Nat
  deriving DecidableEq, Repr

/-- The nodes of references, each under the number of its occurrence, and the table of their
distances. -/
structure Nodes where
  /-- The identity of a node that is alive. -/
  identity? : Occurrence → Option Identity
  /-- Under an identity the node that an entry is for, and its distance. -/
  entry? : Identity → Option (Occurrence × Nat)

namespace Nodes

/-- No node and no entry. -/
def empty : Nodes := ⟨fun _ => none, fun _ => none⟩

/-- A node is alive. -/
def Alive (m : Nodes) (i : Occurrence) : Prop := (m.identity? i).isSome

/-- An entry of the table holds a node. -/
def Holds (m : Nodes) (i : Occurrence) : Prop := ∃ a d, m.entry? a = some (i, d)

/-- A node comes to be at an identity. -/
def make (m : Nodes) (i : Occurrence) (a : Identity) : Nodes :=
  { m with identity? := fun j => if j = i then some a else m.identity? j }

/-- A node is no more. -/
def free (m : Nodes) (i : Occurrence) : Nodes :=
  { m with identity? := fun j => if j = i then none else m.identity? j }

/-- The table with the distance of a node under its identity. -/
def record (m : Nodes) (i : Occurrence) (d : Nat) : Nodes :=
  match m.identity? i with
  | some a => { m with entry? := fun b => if b = a then some (i, d) else m.entry? b }
  | none => m

/-- The table with those of a list of entries. -/
def recordAll (m : Nodes) (entries : List (Occurrence × Nat)) : Nodes :=
  entries.foldl (fun m e => m.record e.1 e.2) m

/-- The distance in the table under the identity of a node. -/
def distance? (m : Nodes) (i : Occurrence) : Option Nat :=
  (m.identity? i).bind fun a => (m.entry? a).map (·.2)

/-- Nodes are made one after another, each at an identity that no live node has. In between, nodes
that no entry holds may go. -/
inductive Makes : List Occurrence → Nodes → Nodes → Prop where
  | done (m : Nodes) : Makes [] m m
  | make {m m' : Nodes} {i : Occurrence} {rest : List Occurrence} (a : Identity)
      (unused : ∀ j, m.identity? j ≠ some a) (more : Makes rest (m.make i a) m') :
      Makes (i :: rest) m m'
  | free {m m' : Nodes} {rest : List Occurrence} (j : Occurrence) (loose : ¬ m.Holds j)
      (more : Makes rest (m.free j) m') : Makes rest m m'

/-- A program is parsed, which makes the nodes of its references in some order, and then resolved,
while all of them are alive. -/
inductive Resolves (r : Resolved) : Nodes → Nodes → Prop where
  | mk {m parsed : Nodes} {made : List Occurrence} (order : made.Perm (Stmt.marksAll r.body))
      (parse : Makes made m parsed) (alive : ∀ i ∈ made, parsed.Alive i) :
      Resolves r m (parsed.recordAll r.entries)

@[simp] theorem identity?_record (m : Nodes) (i : Occurrence) (d : Nat) :
    (m.record i d).identity? = m.identity? := by
  unfold record
  split <;> rfl

theorem record_of_identity {m : Nodes} {i : Occurrence} {a : Identity}
    (h : m.identity? i = some a) (d : Nat) :
    m.record i d = { m with entry? := fun b => if b = a then some (i, d) else m.entry? b } := by
  simp only [record, h]

end Nodes

end Lox
