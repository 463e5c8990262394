import Lox.Proofs.Machine.Effects
import Lox.Proofs.Machine.Reads

/-!
# Calls in sound worlds

Calling a value leads to a fitting configuration or to a legal end. On the way at most two
environments are made: one for the receiver of an initializer and one for the parameters; calls
that are refused make fewer of them.

## Main definitions

* `State.callOrigins`: what the environments of a call are made for
* `Progress.FitsWithin`: a step that makes some of the environments of a list, in order

## Main results

* `State.fits_enter`: a call with as many arguments as parameters
* `State.fits_call`: a call of any value
-/

namespace Lox

/-- What calling a value may make environments for, in order. -/
def State.callOrigins (st : State) (callee : Value) (arguments : List Value) : List Origin :=
  match callee with
  | .function f =>
    match st.store.function? f with
    | some fn => [.call fn arguments]
    | none => []
  | .class c =>
    match st.initializer c with
    | .ok (some fn) => [.receiver fn.decl, .call (st.copyFor fn .nil).1 arguments]
    | _ => []
  | _ => []

section

variable {st : State} {fn : Function} {arguments : List Value}

theorem State.callOrigins_function {f : FunId} (h : st.store.function? f = some fn) :
    st.callOrigins (.function f) arguments = [.call fn arguments] := by
  rw [callOrigins, h]

theorem State.callOrigins_class {c : ClassId} (h : st.initializer c = .ok (some fn)) :
    st.callOrigins (.class c) arguments =
      [.receiver fn.decl, .call (st.copyFor fn .nil).1 arguments] := by
  rw [callOrigins, h]

end

namespace Progress

variable {p : Progress} {K : Site → Prop} {O os os' : List Origin} {st : State}

/-- A step in a sound world that makes the first environments of a list. -/
def FitsWithin (p : Progress) (K : Site → Prop) (O os : List Origin) : Prop :=
  ∃ n ≤ os.length, p.Fits K (O ++ os.take n)

theorem Fits.none (h : p.Fits K O) : p.FitsWithin K O os := ⟨0, Nat.zero_le _, by simpa using h⟩

theorem Fits.all (h : p.Fits K (O ++ os)) : p.FitsWithin K O os :=
  ⟨os.length, Nat.le_refl _, by simpa using h⟩

/-- Environments that were made before. -/
theorem FitsWithin.append (h : p.FitsWithin K (O ++ os) os') : p.FitsWithin K O (os ++ os') := by
  obtain ⟨n, hn, hp⟩ := h
  refine ⟨os.length + n, by simpa using hn, ?_⟩
  rw [List.take_append, List.take_of_length_le (Nat.le_add_right _ _)]
  simpa using hp

theorem fits_atToken (h : (st.world K O).Sound) (t : Token) (cause : ErrorCause) :
    (abort st (.atToken t cause)).Fits K O :=
  ⟨by simp [Halt.Legal, Abort.atToken], h⟩

theorem fits_error (h : (st.world K O).Sound) (e : RuntimeError) : (abort st (.error e)).Fits K O :=
  ⟨by simp [Halt.Legal], h⟩

theorem fits_stackOverflow (h : (st.world K O).Sound) : (abort st .stackOverflow).Fits K O :=
  ⟨by simp [Halt.Legal], h⟩

end Progress

namespace State

variable {st : State} {setup : Setup} {K : Site → Prop} {O : List Origin} {c : Context}
  {os : List Opener} {k : ValueCont} {fn : Function} {arguments : List Value}

/-- A call with as many arguments as parameters begins, unless too many calls are nested. -/
theorem fits_enter (h : (st.world K O).Sound) (hs : Surveyed setup.locals K)
    (hm : (st.world K O).Mirrors st.environment c.scopes os) (hk : k.Fits (st.world K O) c os)
    (hfn : fn.Fits (st.world K O)) (hv : ∀ v ∈ arguments, v.Fits (st.world K O))
    (hlen : arguments.length = fn.decl.arity) {result : CallResult}
    (hresult : result.Fits (st.world K O)) :
    (st.enter setup fn arguments result k).FitsWithin K O [.call fn arguments] := by
  unfold enter
  split
  · exact (Progress.fits_stackOverflow h).none
  · obtain ⟨hgrows, c', os', hsite, hm'⟩ := h.enterFunction hs hfn hv hlen
    refine Progress.Fits.all ⟨hgrows.sound, .complete hm' (by simp) ⟨hsite, rfl, ?_⟩⟩
    exact ⟨hresult.extend hgrows.extend, c, os, hm.extend hgrows.extend, hk.extend hgrows.extend⟩

theorem grows_addInstance (h : (st.world K O).Sound) (cls : ClassId) :
    (st.world K O).Grows ((st.addInstance cls).2.world K O) :=
  ⟨h.addInstance cls, World.extends_withStore (Store.extends_addInstance cls)⟩

theorem grows_copyFor (h : (st.world K O).Sound) (hfn : fn.FitsMethod (st.world K O)) {v : Value}
    (hv : v.Fits (st.world K O)) :
    (st.world K O).Grows ((st.copyFor fn v).2.world K (O ++ [.receiver fn.decl])) ∧
      (st.copyFor fn v).1.Fits ((st.copyFor fn v).2.world K (O ++ [.receiver fn.decl])) :=
  h.copyFor hfn hv

/-- A new instance with as many arguments as its initializer has parameters, for which the
initializer is copied. -/
theorem fits_construct (h : (st.world K O).Sound) (hs : Surveyed setup.locals K)
    (hm : (st.world K O).Mirrors st.environment c.scopes os) (hk : k.Fits (st.world K O) c os)
    (hfn : fn.FitsMethod (st.world K O)) (hv : ∀ v ∈ arguments, v.Fits (st.world K O))
    (hlen : arguments.length = fn.decl.arity) (cls : ClassId) :
    (((st.addInstance cls).2.copyFor fn (.instance (st.addInstance cls).1)).2.enter setup
      ((st.addInstance cls).2.copyFor fn (.instance (st.addInstance cls).1)).1 arguments
      (.constructed (st.addInstance cls).1) k).FitsWithin K O
      [.receiver fn.decl, .call (st.copyFor fn .nil).1 arguments] := by
  have hadd := grows_addInstance h cls
  obtain ⟨hcopy, hfits⟩ := grows_copyFor (v := .instance (st.addInstance cls).1) hadd.sound
    (hfn.extend hadd.extend) (World.fits_of_not_function (by simp))
  have hext := (hadd.trans hcopy).extend
  have hcall := fits_enter hcopy.sound hs (hm.extend hext) (hk.extend hext) hfits
    (fun v hmem => (hv v hmem).extend hext) hlen
    (show (CallResult.constructed (st.addInstance cls).1).Fits _ from trivial)
  exact hcall.append

/-- A call of any value. -/
theorem fits_call (h : (st.world K O).Sound) (hs : Surveyed setup.locals K)
    (hm : (st.world K O).Mirrors st.environment c.scopes os) (hk : k.Fits (st.world K O) c os)
    {callee : Value} (hcallee : callee.Fits (st.world K O))
    (hv : ∀ v ∈ arguments, v.Fits (st.world K O)) (paren : Token) :
    (st.call setup callee arguments paren k).FitsWithin K O (st.callOrigins callee arguments) := by
  have hform := st.callForm_call setup callee arguments paren
  generalize st.call setup callee arguments paren = call at hform ⊢
  cases hform with
  | refused => exact (Progress.fits_atToken h paren _).none
  | noFunction hf =>
    -- what fits is there
    obtain ⟨fn, hfn, -⟩ := Store.regular_function (hcallee _ rfl)
    cases hfn.symm.trans hf
  | noInitializer hinit =>
    obtain ⟨init, hinit', -⟩ := regular_initializer h _
    cases hinit'.symm.trans hinit
  | clock =>
    refine Progress.Fits.none ⟨h, .deliver hm (World.fits_of_not_function ?_) hk⟩
    exact fun f hf => by cases hf
  | @bare cls =>
    have hadd := grows_addInstance h cls
    exact Progress.Fits.none ⟨hadd.sound, .deliver (hm.extend hadd.extend)
      (World.fits_of_not_function (by simp)) (hk.extend hadd.extend)⟩
  | @function f fn hfn hlength =>
    obtain ⟨fn', hfn', hfits⟩ := hcallee f rfl
    obtain rfl : fn' = fn := Option.some.inj (hfn'.symm.trans hfn)
    rw [callOrigins_function hfn]
    refine fits_enter h hs hm hk hfits hv hlength ?_
    split
    · next hinit => exact hfits.receiver hinit
    · trivial
  | @initializer cls fn hinit hlength =>
    obtain ⟨init, hinit', hfits⟩ := regular_initializer h cls
    obtain rfl : init = some fn := Except.ok.inj (hinit'.symm.trans hinit)
    rw [callOrigins_class hinit]
    exact fits_construct h hs hm hk (hfits fn rfl) hv hlength cls

end State

end Lox
