import Lox.Proofs.Machine.Moments

/-!
# Chains of environments

In a sound world the environments around one lead to the globals. Later steps add environments
but move none, so the chain of an environment stays what it is, and with it the chain of the
closure of every function. Where a chain mirrors scopes, it consists of one instance of each
scope and of the globals.

## Main definitions

* `Store.Rooted`: the environments around one lead to the globals
* `Store.Closed`: so do those around the closure of every function
* `Store.Keeps`: functions and the chains of their closures stay what they are
* `Store.Instance`, `Store.Mirrors`: the chain of an environment consists of instances of scopes

## Main results

* `Store.Closed.keeps`: growth keeps the chains of closures
* `World.Mirrors.mirrors`: the chain at a site
* `Config.keeps_after`, `Config.closed_run`: closures at the moments and at the end of a run
-/

namespace Lox

namespace Store

variable {σ τ : Store} {e p : EnvId}

/-- The environments around one lead to the globals. -/
inductive Rooted (σ : Store) : EnvId → Prop where
  | globals : Rooted σ Store.globals
  | inside {e p : EnvId} (h : σ.parent? e = some p) (outer : Rooted σ p) : Rooted σ e

theorem Rooted.extend (h : σ.Rooted e) (hσ : σ.Extends τ) : τ.Rooted e := by
  induction h with
  | globals => exact .globals
  | inside h _ ih => exact .inside (hσ.parents h) ih

/-- An environment is inside an earlier one, and the globals are inside none. -/
structure Ordered (σ : Store) : Prop where
  /-- There are globals. -/
  globals : σ.Has Store.globals
  /-- The globals are outermost. -/
  outermost : σ.parent? Store.globals = none
  /-- An environment is inside an earlier one. -/
  parents : ∀ {e p : EnvId}, σ.parent? e = some p → p.index < e.index

theorem Rooted.has (h : σ.Rooted e) (hσ : σ.Ordered) : σ.Has e := by
  cases h with
  | globals => exact hσ.globals
  | inside h _ => exact has_of_parent? h

theorem chainWithin_globals (hσ : σ.Ordered) {n : Nat} (hn : Store.globals.index < n) :
    σ.chainWithin n Store.globals = [Store.globals] := by
  obtain ⟨n, rfl⟩ := Nat.exists_eq_succ_of_ne_zero (Nat.ne_zero_of_lt hn)
  simp [chainWithin, hσ.outermost]

theorem chainWithin_inside (h : σ.parent? e = some p) {n : Nat} (hn : e.index < n) :
    σ.chainWithin n e = e :: σ.chainWithin (n - 1) p := by
  obtain ⟨n, rfl⟩ := Nat.exists_eq_succ_of_ne_zero (Nat.ne_zero_of_lt hn)
  simp [chainWithin, h]

/-- Growth does not change the environments around one. -/
theorem Rooted.chainWithin_eq (h : σ.Rooted e) (hσ : σ.Ordered) (hτ : τ.Ordered)
    (hext : σ.Extends τ) {m n : Nat} (hm : e.index < m) (hn : e.index < n) :
    τ.chainWithin m e = σ.chainWithin n e := by
  induction h generalizing m n with
  | globals => rw [chainWithin_globals hτ hm, chainWithin_globals hσ hn]
  | @inside e p h _ ih =>
    have hlt := hσ.parents h
    rw [chainWithin_inside (hext.parents h) hm, chainWithin_inside h hn,
      ih (m := m - 1) (n := n - 1) (by omega) (by omega)]

theorem Rooted.chain_eq (h : σ.Rooted e) (hσ : σ.Ordered) (hτ : τ.Ordered)
    (hext : σ.Extends τ) : τ.chain e = σ.chain e :=
  h.chainWithin_eq hσ hτ hext ((h.extend hext).has hτ) (h.has hσ)

/-! ## Closures -/

/-- The environments around the closure of every function lead to the globals. -/
def Closed (σ : Store) : Prop :=
  ∀ f fn, σ.function? f = some fn → σ.Rooted fn.closure

/-- A step in an environment that leads to the globals. -/
theorem Closed.follows (h : σ.Closed) (he : σ.Rooted e) (hστ : σ.Follows τ e) : τ.Closed := by
  intro f fn hfn
  rcases hστ.created f fn hfn with hold | ⟨hhere | hbelow | ⟨h₀, -, hbound⟩⟩
  · exact (h f fn hold).extend hστ.growth
  · exact hhere ▸ he.extend hστ.growth
  · exact .inside hbelow (he.extend hστ.growth)
  · exact .inside hbound ((h _ _ h₀).extend hστ.growth)

/-- Functions and the chains of their closures stay what they are. -/
def Keeps (σ τ : Store) : Prop :=
  ∀ f fn, σ.function? f = some fn →
    τ.function? f = some fn ∧ τ.chain fn.closure = σ.chain fn.closure

/-- Growth keeps the chains of closures. -/
theorem Closed.keeps (h : σ.Closed) (hσ : σ.Ordered) (hτ : τ.Ordered) (hext : σ.Extends τ) :
    σ.Keeps τ :=
  fun f fn hfn => ⟨hext.functions hfn, (h f fn hfn).chain_eq hσ hτ hext⟩

/-! ## Instances of scopes -/

/-- An environment was made for the opener of a scope and holds only names that it declares. -/
def Instance (σ : Store) (origins : List Origin) (e : EnvId) (opener : Opener) : Prop :=
  (∃ o, origins[e.index]? = some o ∧ o.For opener) ∧ ∀ n, σ.holds e n → n ∈ opener.names

/-- The chain of an environment has one instance of each scope that is open at a site, in the
same order, and then the globals. -/
def Mirrors (σ : Store) (origins : List Origin) (e : EnvId) (p : Site) : Prop :=
  List.Forall₂ (fun scope opener => ∀ n, scope.has n → n ∈ opener.names)
      p.context.scopes p.openers ∧
    ∃ es, σ.chain e = es ++ [Store.globals] ∧ List.Forall₂ (σ.Instance origins) es p.openers

end Store

namespace World

variable {w : World} {e : EnvId} {scopes : List Scope} {os : List Opener}

theorem Sound.ordered (h : w.Sound) : w.store.Ordered :=
  ⟨Mirrors.has h .globals, h.outermost, h.parents⟩

theorem Mirrors.rooted (h : w.Mirrors e scopes os) : w.store.Rooted e := by
  induction h with
  | globals => exact .globals
  | inside _ _ _ hparent _ ih => exact .inside hparent ih

theorem Mirrors.chainWithin (hw : w.Sound) (h : w.Mirrors e scopes os) {n : Nat}
    (hn : e.index < n) :
    ∃ es, w.store.chainWithin n e = es ++ [Store.globals] ∧
      List.Forall₂ (w.store.Instance w.origins) es os := by
  induction h generalizing n with
  | globals => exact ⟨[], Store.chainWithin_globals hw.ordered hn, .nil⟩
  | @inside e p o scope scopes opener openers ho hfor hnames hparent _ ih =>
    have hlt := hw.parents hparent
    obtain ⟨es, hes, hall⟩ := ih (n := n - 1) (by omega)
    have hinstance : w.store.Instance w.origins e opener :=
      ⟨⟨o, ho, hfor⟩, fun m hm => hfor.allows_iff.1 (hw.names hm ho)⟩
    exact ⟨e :: es, by rw [Store.chainWithin_inside hparent hn, hes]; rfl, .cons hinstance hall⟩

/-- The chain at a settled site. -/
theorem Mirrors.mirrors {p : Site} (hw : w.Sound) (hp : p.Settled)
    (h : w.Mirrors e p.context.scopes p.openers) : w.store.Mirrors w.origins e p :=
  ⟨hp.context.names, h.chainWithin hw (h.has hw)⟩

end World

/-! ## Moments -/

theorem Control.Fits.rooted {w : World} {e : EnvId} {control : Control} (h : control.Fits w e) :
    w.store.Rooted e := by
  cases h with
  | evaluate _ hm | superclass _ hm | execute _ hm | deliver hm | complete hm => exact hm.rooted

namespace Config

variable {setup : Setup} {K : Site → Prop} {O : List Origin} {c d : Config} {n : Nat}

theorem Fits.ordered (h : c.Fits K O) : c.state.store.Ordered := h.sound.ordered

theorem Fits.closed_step (h : c.Fits K O) (hc : c.state.store.Closed) (setup : Setup) :
    (c.step setup).state.store.Closed :=
  hc.follows h.control.rooted (follows_step c setup).store

/-- The closures at every moment of a run. -/
theorem closed_after (h : c.Fits K O) (hs : Surveyed setup.locals K)
    (hc : c.state.store.Closed) (hd : c.after? setup n = some d) : d.state.store.Closed := by
  induction n generalizing c O with
  | zero =>
    cases hd
    exact hc
  | succ n ih =>
    obtain ⟨c', event, hstep, hd⟩ := exists_next_of_after? hd
    have hnext := fits_opened h hs
    have hclosed := h.closed_step hc setup
    rw [hstep] at hnext hclosed
    exact ih hnext hclosed hd

/-- The chains of closures from one moment to a later one. -/
theorem keeps_after (h : c.Fits K O) (hs : Surveyed setup.locals K)
    (hc : c.state.store.Closed) (hd : c.after? setup n = some d) :
    c.state.store.Keeps d.state.store := by
  obtain ⟨t, hsteps⟩ := steps_of_after? hd
  exact hc.keeps h.ordered (fits_after h hs hd).ordered hsteps.extends

/-- The closures at the end of a run, and their chains from its start. -/
theorem closed_run (h : c.Fits K O) (hs : Surveyed setup.locals K) (hc : c.state.store.Closed)
    (n : Nat) (recent : Transcript) :
    (runFrom setup n c recent).state.store.Closed ∧
      c.state.store.Keeps (runFrom setup n c recent).state.store := by
  have hend := (fits_run h hs n recent).1.ordered
  obtain ⟨m, d, t, -, hd, hsteps, hrun | ⟨halt, st, hhalt, hrun⟩⟩ := exists_moment setup n c recent
  · rw [hrun] at hend ⊢
    exact ⟨closed_after h hs hc hd, hc.keeps h.ordered hend hsteps.extends⟩
  · rw [hrun] at hend ⊢
    have hclosed := (fits_after h hs hd).closed_step (closed_after h hs hc hd) setup
    have hlast := (follows_step d setup).store.growth
    rw [hhalt] at hclosed hlast
    exact ⟨hclosed, hc.keeps h.ordered hend (hsteps.extends.trans hlast)⟩

end Config

end Lox
