import Lox.Proofs.Machine.World

/-!
# Changes of sound worlds

Every single change of the store keeps a sound world sound: setting a variable where its name is
allowed, opening an environment for an origin, and adding functions, classes and instances. The
changed world extends the one before.

## Main definitions

* `World.withStore`, `World.opened`: changed worlds

## Main results

* `World.Sound.define`, `World.Sound.opened` and their like: the single changes
-/

namespace Lox.World

variable {w : World} {e p : EnvId} {name : String} {v : Value}

/-- The world with another store. -/
def withStore (w : World) (σ : Store) : World := { w with store := σ }

/-- The world with one more environment. -/
def opened (w : World) (p : EnvId) (o : Origin) : World :=
  { w with store := (w.store.addEnvironment (some p)).2, origins := w.origins ++ [o] }

theorem extends_withStore {σ : Store} (h : w.store.Extends σ) : w.Extends (w.withStore σ) :=
  ⟨id, h, List.prefix_refl _⟩

theorem extends_opened (w : World) (p : EnvId) (o : Origin) : w.Extends (w.opened p o) :=
  ⟨id, Store.extends_addEnvironment _, List.prefix_append _ _⟩

namespace Mirrors

variable {scopes : List Scope} {openers : List Opener}

theorem has (hw : w.Sound) (h : w.Mirrors e scopes openers) : w.store.Has e := by
  have hlt : e.index < w.origins.length := by
    cases h with
    | globals => exact (List.getElem?_eq_some_iff.1 hw.globals).1
    | inside ho => exact (List.getElem?_eq_some_iff.1 ho).1
  rwa [hw.length] at hlt

/-- An environment may hold what the opener of its scope declares. -/
theorem allows (hw : w.Sound) (h : w.Mirrors e scopes openers)
    (hn : ∀ o ∈ openers.head?, name ∈ o.names) {o : Origin} (ho : w.origin? e = some o) :
    o.Allows name := by
  cases h with
  | globals =>
    rw [hw.globals] at ho
    cases ho
    simp [Origin.Allows, Origin.names?]
  | inside ho' hfor =>
    rw [ho'] at ho
    cases ho
    exact hfor.allows_iff.2 (hn _ rfl)

end Mirrors

namespace Sound

theorem methods_extend {w' : World} (h : w.Sound) (hw : w.Extends w') {c : ClassId} {cls : Class}
    (hc : w.store.class? c = some cls) : w'.HasMethods cls.methods ∧ w'.HasMethods cls.statics :=
  ⟨(h.methods hc).1.extend hw, (h.methods hc).2.extend hw⟩

theorem met_extend {σ : Store} (h : w.Sound) (hσ : w.store.Extends σ) :
    ∀ o ∈ w.origins, o.Met σ :=
  fun o ho => (h.met o ho).extend hσ

/-- A variable is set where its name is allowed. -/
theorem define (h : w.Sound) (he : w.store.Has e)
    (ho : ∀ o, w.origin? e = some o → o.Allows name)
    (hv : v.Fits (w.withStore (w.store.define e name v)))
    (hsuper : name = Keyword.superWord.text → ∃ c, v = .class c) :
    (w.withStore (w.store.define e name v)).Sound := by
  have hext : w.Extends (w.withStore (w.store.define e name v)) :=
    extends_withStore Store.extends_define
  refine ⟨by simpa [withStore] using h.length, h.met_extend hext.store, h.globals,
    ?outermost, ?parents, ?names, ?values, ?super, ?methods, ?fields⟩
  case outermost => simpa [withStore] using h.outermost
  case parents =>
    intro a p hp
    exact h.parents (by simpa [withStore] using hp)
  case names =>
    intro a n o hn ho'
    -- the name is the new one, whose environment allows it, or it was there before
    rw [withStore, Store.holds_define he, Bool.or_eq_true, decide_eq_true_iff] at hn
    rcases hn with ⟨rfl, rfl⟩ | hn
    · exact ho o ho'
    · exact h.names hn ho'
  case values =>
    intro a n u hu
    simp only [withStore, Store.binding?_define he] at hu
    split at hu
    · cases hu
      exact hv
    · exact (h.values hu).extend hext
  case super =>
    intro a u hu
    simp only [withStore, Store.binding?_define he] at hu
    split at hu
    · next hcase =>
      cases hu
      exact hsuper hcase.2.symm
    · exact h.super hu
  case methods => exact fun hc => h.methods_extend hext hc
  case fields =>
    intro i n u hu
    exact (h.fields (w := w) hu).extend hext

/-- An environment is opened inside another one. -/
theorem opened {o : Origin} (h : w.Sound) (hp : w.store.Has p) (ho : o.Met w.store) :
    (w.opened p o).Sound := by
  have hext := w.extends_opened p o
  have hself : (w.store.addEnvironment (some p)).1.index = w.origins.length := h.length.symm
  refine ⟨by simp [World.opened, h.length], fun o' ho' => ?met, hext.origin? h.globals,
    ?outermost, ?parents, ?names, ?values, ?super, ?methods, ?fields⟩
  case met =>
    rcases List.mem_append.1 ho' with ho' | ho'
    · exact h.met_extend hext.store o' ho'
    · exact List.mem_singleton.1 ho' ▸ ho.extend hext.store
  case outermost =>
    -- the globals are there already, so they are not the new environment
    have hne : Store.globals ≠ (w.store.addEnvironment (some p)).1 :=
      Store.ne_addEnvironment _ (Mirrors.has h .globals)
    rw [World.opened, Store.parent?_addEnvironment_of_ne _ hne, h.outermost]
  case parents =>
    intro a q hq
    by_cases ha : a = (w.store.addEnvironment (some p)).1
    · subst ha
      rw [World.opened, Store.parent?_addEnvironment_self] at hq
      cases hq
      exact hp
    · rw [World.opened, Store.parent?_addEnvironment_of_ne _ ha] at hq
      exact h.parents hq
  case names =>
    intro a n o' hn ho'
    have hn' : w.store.holds a n := by simpa [World.opened] using hn
    refine h.names hn' ?_
    -- the new environment is empty, so the one that holds the name has its origin from before
    have hlt := Store.has_of_holds hn'
    rw [Store.Has, ← h.length] at hlt
    rwa [origin?, World.opened, List.getElem?_append_left hlt] at ho'
  case values =>
    intro a n u hu
    exact (h.values (by simpa [World.opened] using hu)).extend hext
  case super =>
    intro a u hu
    exact h.super (by simpa [World.opened] using hu)
  case methods => exact fun hc => h.methods_extend hext hc
  case fields =>
    intro i n u hu
    exact (h.fields (w := w) hu).extend hext

/-- What changes no environment keeps a world sound, if the tables of its classes still hold methods
and its fields have values that fit. -/
theorem of_environments {w' : World} (h : w.Sound) (hw : w.Extends w')
    (horigins : w'.origins = w.origins)
    (henvironments : w'.store.environments = w.store.environments)
    (hmethods : ∀ {c : ClassId} {cls : Class}, w'.store.class? c = some cls →
      w'.HasMethods cls.methods ∧ w'.HasMethods cls.statics)
    (hfields : ∀ {i : InstanceId} {n : String} {u : Value}, w'.store.field? i n = some u →
      u.Fits w') : w'.Sound := by
  have hparent : ∀ a, w'.store.parent? a = w.store.parent? a := fun a => by
    simp only [Store.parent?, Store.environment?, henvironments]
  have hbinding : ∀ a n, w'.store.binding? a n = w.store.binding? a n := fun a n => by
    simp only [Store.binding?, Store.environment?, henvironments]
  have horigin : ∀ a, w'.origin? a = w.origin? a := fun a => by
    rw [origin?, origin?, horigins]
  exact {
    length := by rw [horigins, henvironments, h.length]
    met := fun o ho => h.met_extend hw.store o (horigins ▸ ho)
    globals := hw.origin? h.globals
    outermost := (hparent _).trans h.outermost
    parents := fun hp => h.parents ((hparent _).symm.trans hp)
    names := fun hn ho => by
      rw [Store.holds, hbinding] at hn
      exact h.names hn ((horigin _).symm.trans ho)
    values := fun hu => (h.values ((hbinding _ _).symm.trans hu)).extend hw
    super := fun hu => h.super ((hbinding _ _).symm.trans hu)
    methods := hmethods
    fields := hfields }

/-- A function is added. -/
theorem addFunction (h : w.Sound) (g : Function) :
    (w.withStore (w.store.addFunction g).2).Sound := by
  have hext : w.Extends (w.withStore (w.store.addFunction g).2) :=
    extends_withStore (Store.extends_addFunction g)
  exact h.of_environments hext rfl rfl (fun hc => h.methods_extend hext hc)
    fun hu => (h.fields (w := w) hu).extend hext

/-- A class with methods is added. -/
theorem addClass (h : w.Sound) {c : Class} (hmethods : w.HasMethods c.methods)
    (hstatics : w.HasMethods c.statics) : (w.withStore (w.store.addClass c).2).Sound := by
  have hext : w.Extends (w.withStore (w.store.addClass c).2) :=
    extends_withStore (Store.extends_addClass c)
  refine h.of_environments hext rfl rfl (fun hd => ?_) fun hu => (h.fields (w := w) hu).extend hext
  rcases Store.class?_addClass hd with rfl | hd
  · exact ⟨hmethods.extend hext, hstatics.extend hext⟩
  · exact h.methods_extend hext hd

/-- An instance is added. -/
theorem addInstance (h : w.Sound) (c : ClassId) :
    (w.withStore (w.store.addInstance c).2).Sound := by
  have hext : w.Extends (w.withStore (w.store.addInstance c).2) :=
    extends_withStore (Store.extends_addInstance c)
  refine h.of_environments hext rfl rfl (fun hd => h.methods_extend hext hd) fun hu => ?_
  exact (h.fields (by simpa [withStore] using hu)).extend hext

/-- A field is set. -/
theorem setField (h : w.Sound) (i : InstanceId) (name : String) (hv : v.Fits w) :
    (w.withStore (w.store.setField i name v)).Sound := by
  have hext : w.Extends (w.withStore (w.store.setField i name v)) :=
    extends_withStore (Store.extends_setField i)
  refine h.of_environments hext rfl rfl (fun hd => h.methods_extend hext hd) fun hu => ?_
  rcases Store.field?_setField hu with rfl | hu
  · exact hv.extend hext
  · exact (h.fields hu).extend hext

/-- Further programs are accepted. -/
theorem withSites (h : w.Sound) {K : Site → Prop} (hK : ∀ p, w.sites p → K p) :
    Sound { w with sites := K } := by
  have hext : w.Extends { w with sites := K } := ⟨fun hp => hK _ hp, .refl _, List.prefix_refl _⟩
  exact h.of_environments hext rfl rfl (fun hd => h.methods_extend hext hd)
    fun hu => (h.fields (w := w) hu).extend hext

end Sound

end Lox.World
