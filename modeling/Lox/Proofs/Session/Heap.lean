import Lox.Proofs.Machine.Linked
import Lox.Proofs.Session.Joined

/-!
# The objects of a session

In every state that a session reaches, whatever its texts are and however their runs end, the
environments around one lead to the globals, the classes above one come to an end, and no reference
dangles. From one state to the next objects keep what they were made with.

## Main results

* `Config.evolves_run`: from one state of a run to a later one
* `Session.advances_texts`: from text to text
* `Session.heap_wellFormed`: all states of a session
-/

namespace Lox

namespace Config

variable {setup : Setup} {σ : Store} {c d : Config} {m n : Nat}

theorem state_run_next {event : Option Event} (h : c.step setup = .next d event) (n : Nat) :
    (c.run setup (n + 1)).state = (d.run setup n).state := by
  rw [run, runFrom_next h, runFrom_recent]

/-- Objects keep what they were made with from one state of a run to a later one. -/
theorem evolves_run (h : c.Linked σ) (setup : Setup) (hmn : m ≤ n) :
    (c.run setup m).state.store.Evolves (c.run setup n).state.store := by
  induction m generalizing c n with
  | zero =>
    have hself : c.Linked c.state.store := ⟨h.linked.refl, h.environment, h.objects⟩
    exact (linked_run hself setup n).advances.evolves
  | succ m ih =>
    obtain ⟨n, rfl⟩ := Nat.exists_eq_add_of_le' hmn
    have hle : m ≤ n + m := by omega
    cases hs : c.step setup with
    | next d event =>
      have hnext := linked_step h setup
      rw [hs] at hnext
      rw [state_run_next hs, ← Nat.add_assoc, state_run_next hs]
      exact ih hnext hle
    | halt halt st =>
      -- nothing comes after the end
      rw [run, run, runFrom_halt hs, ← Nat.add_assoc, runFrom_halt hs]
      exact .refl st.store

end Config

namespace Session

variable {s : Session} {r : Resolved}

/-- The run of an accepted text starts without dangling references. -/
theorem linked_launch (h : s.store.Linked) (r : Resolved) : (s.launch r).Linked s.store :=
  ⟨h.refl, h.globals, Store.containsAll_nil⟩

/-- A text stores no dangling reference. -/
theorem advances_run (h : s.store.Linked) (o : Options) (source : String) :
    s.store.Advances (s.run o source).2.store := by
  cases hr : s.accepted? source with
  | none =>
    obtain ⟨seen, hrun, -⟩ := run_of_rejected hr o
    rw [hrun]
    exact h.refl
  | some r =>
    rw [run_of_accepted hr]
    exact (Config.linked_run (linked_launch h r) (s.setupFor o r) o.budget).advances

/-- Several texts store no dangling reference. -/
theorem advances_texts (h : s.store.Linked) (texts : List (Options × String)) :
    s.store.Advances (texts.foldl (fun s x => (s.run x.1 x.2).2) s).store := by
  induction texts generalizing s with
  | nil => exact h.refl
  | cons x rest ih =>
    have hfirst := advances_run h x.1 x.2
    exact hfirst.trans (ih hfirst.linked)

/-- The states of a session.

Between any two texts, and after any number of steps of the run of a text, following the parents of
an environment leads to the globals and following the superclasses of a class comes to an end, and
neither meets anything twice; so the searches for variables and for methods end, and what they find
is what the bounded searches of the store find. What variables, fields, methods and closures refer
to is in the store. From a state to every later one, of the same run or after further texts,
environments keep their parents and their names, functions their closures, classes their
superclasses and methods, and instances their classes and the names of their fields. -/
theorem heap_wellFormed (texts : List (Options × String)) :
    let s := ofTexts texts
    s.store.WellFormed ∧ (∀ more, s.store.Evolves (ofTexts (texts ++ more)).store) ∧
    ∀ o source r, s.accepted? source = some r →
      let state := fun n => ((s.launch r).run (s.setupFor o r) n).state
      (s.run o source).2.store = (state o.budget).store ∧
      ∀ n, (state n).store.WellFormed ∧ (state n).store.Has (state n).environment ∧
        ∀ m ≤ n, (state m).store.Evolves (state n).store := by
  intro s
  have hlinked : s.store.Linked := (advances_texts Store.linked_fresh texts).linked
  refine ⟨hlinked.wellFormed, fun more => ?_, fun o source r hr => ?_⟩
  · have hmore := (advances_texts hlinked more).evolves
    rwa [ofTexts, List.foldl_append]
  · have hlaunch := linked_launch hlinked r
    refine ⟨by rw [run_of_accepted hr]; rfl, fun n => ⟨?_, ?_, fun m hmn => ?_⟩⟩
    · exact (Config.linked_run hlaunch _ n).linked.wellFormed
    · exact (Config.linked_run hlaunch _ n).environment
    · exact Config.evolves_run hlaunch _ hmn

/-- A class that is declared again under the name of its own ancestor has the older class above
it. -/
theorem heap_wellFormed_redeclared :
    let s := ofTexts [(Options.still, "class A {} class B < A {}")]
    ∃ r n, s.accepted? "class A < B {} A().a = A;" = some r ∧
      let σ := ((s.launch r).run (s.setupFor .still r) n).state.store
      (σ.binding? Store.globals "A" = some (.class ⟨2⟩) ∧ σ.lineage ⟨2⟩ = [⟨2⟩, ⟨1⟩, ⟨0⟩]) ∧
      Leads σ.superclass? ⟨2⟩ (σ.lineage ⟨2⟩) ∧ σ.Contains (.class ⟨2⟩) := by
  intro s
  have hrun : ((s.accepted? "class A < B {} A().a = A;").any fun r =>
      let σ := ((s.launch r).run (s.setupFor .still r) 30).state.store
      σ.binding? Store.globals "A" = some (.class ⟨2⟩) ∧ σ.lineage ⟨2⟩ = [⟨2⟩, ⟨1⟩, ⟨0⟩]) := by
    decide +kernel
  obtain ⟨r, hr, hfound⟩ := (Option.any_eq_true ..).1 hrun
  obtain ⟨hname, hlineage⟩ := of_decide_eq_true hfound
  obtain ⟨-, -, hruns⟩ := heap_wellFormed [(Options.still, "class A {} class B < A {}")]
  obtain ⟨hwell, -⟩ := (hruns .still _ r hr).2 30
  have hclass := hwell.references _ _ (.variable hname (List.mem_singleton_self _))
  exact ⟨r, 30, hr, ⟨hname, hlineage⟩, (hwell.classes _ hclass).1, hclass⟩

end Session

end Lox
