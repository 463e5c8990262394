import Lox.Proofs.Session.Joined

/-!
# The store from text to text

What every step makes of a store, a run makes of it, and so do texts one after another: a text
that is rejected leaves the store as it is.

## Main results

* `Config.grows_after`, `Config.grows_run`: from steps to runs
* `Session.grows_ofTexts`: from steps to texts
* `Session.extends_ofTexts`: texts only add to the store
-/

namespace Lox

section Growth

variable {R : Store → Store → Prop} (hrefl : ∀ σ, R σ σ)
  (htrans : ∀ {σ τ υ : Store}, R σ τ → R τ υ → R σ υ)
  (hstep : ∀ (c : Config) (setup : Setup), R c.state.store (c.step setup).state.store)

namespace Config

include hrefl htrans hstep

/-- What every step makes of the store is made of it up to every moment of a run. -/
theorem grows_after {setup : Setup} {c d : Config} {n : Nat} (hd : c.after? setup n = some d) :
    R c.state.store d.state.store := by
  refine invariant_after (P := fun d => R c.state.store d.state.store) (hrefl _)
    (fun m e _ he f event hnext => htrans he ?_) hd
  have hnow := hstep e setup
  rwa [hnext] at hnow

/-- What every step makes of the store a run makes of it. -/
theorem grows_run (c : Config) (setup : Setup) (n : Nat) :
    R c.state.store (c.run setup n).state.store := by
  refine state_run (Q := fun st => R c.state.store st.store) (fun m d hd => ?_) n
  have hmoment := grows_after hrefl htrans hstep hd
  exact ⟨hmoment, htrans hmoment (hstep d setup)⟩

end Config

namespace Session

include hrefl htrans hstep

/-- What every step makes of the store a text makes of it. -/
theorem grows_text (s : Session) (o : Options) (source : String) :
    R s.store (s.run o source).2.store := by
  cases hr : s.accepted? source with
  | none =>
    obtain ⟨seen, hrun, -⟩ := run_of_rejected hr o
    rw [hrun]
    exact hrefl _
  | some r =>
    rw [run_of_accepted hr]
    exact Config.grows_run hrefl htrans hstep (s.launch r) (s.setupFor o r) o.budget

/-- What every step makes of the store further texts make of it. -/
theorem grows_ofTexts (texts more : List (Options × String)) :
    R (ofTexts texts).store (ofTexts (texts ++ more)).store := by
  have hfold : ∀ s : Session,
      R s.store (more.foldl (fun s x => (s.run x.1 x.2).2) s).store := by
    induction more with
    | nil => exact fun s => hrefl _
    | cons x rest ih => exact fun s => htrans (grows_text hrefl htrans hstep s x.1 x.2) (ih _)
  have hmore := hfold (ofTexts texts)
  rwa [ofTexts, ← List.foldl_append] at hmore

end Session

end Growth

/-- Texts only add to the store. -/
theorem Session.extends_ofTexts (texts more : List (Options × String)) :
    (ofTexts texts).store.Extends (ofTexts (texts ++ more)).store :=
  grows_ofTexts (R := Store.Extends) (fun σ => .refl σ) (fun h h' => h.trans h')
    (fun c setup => (Config.follows_step c setup).store.growth) texts more

end Lox
