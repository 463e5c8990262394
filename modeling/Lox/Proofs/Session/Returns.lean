import Lox.Proofs.Machine.Ends
import Lox.Proofs.Session.Resolutions

/-!
# Returns in a session

Whatever texts a session has had, the run of an accepted text returns inside of calls only, and
every call of it ends as the function that is called says.

## Main results

* `Session.initializes_ofTexts`: what classes have under the name of an initializer
* `Session.governed_launch`: where the run of an accepted text starts
* `Session.returns_disciplined`: the calls and the returns of a run
-/

namespace Lox

namespace Session

variable {texts : List (Options × String)} {source : String} {r : Resolved}

/-- What classes have under the name of an initializer is one. -/
theorem initializes_ofTexts (texts : List (Options × String)) :
    (ofTexts texts).store.Initializes := by
  have hfresh : (ofTexts []).store.Initializes := by
    intro c cls hcls
    cases hcls
  refine grows_ofTexts (R := fun σ τ => σ.Initializes → τ.Initializes) ?_ ?_ ?_ [] texts hfresh
  · exact fun σ h => h
  · exact fun h h' hσ => h' (h hσ)
  · exact fun c setup h => Config.initializes_step c setup h

/-- The run of an accepted text starts outside of functions, with the functions of the texts. -/
theorem governed_launch (hr : (ofTexts texts).accepted? source = some r) (o : Options) :
    ((ofTexts texts).launch r).Governed ((ofTexts texts).setupFor o r)
      (SitesOf ((History.ofTexts texts).programs ++ [r.body])) (History.ofTexts texts).origins := by
  have hv := History.valid_ofTexts texts
  have hsession := History.session_ofTexts texts
  have hfits := hv.fits r
  have hsurveyed := hv.surveyed (hsession.symm ▸ hr) o
  rw [hsession] at hfits hsurveyed
  refine ⟨hfits, hsurveyed, ⟨fun f fn hfn => ?_, initializes_ofTexts texts⟩, trivial, ?_⟩
  · have hfunctions := History.functions_declaredIn texts
    rw [hsession] at hfunctions
    refine (hfunctions f fn hfn).mono ?_
    rintro p ⟨body, hbody, hp⟩
    exact ⟨body, List.mem_append_left _ hbody, hp⟩
  · exact ⟨{}, [], ⟨r.body, List.mem_append_right _ (List.mem_singleton_self _), .root⟩, rfl⟩

/-- The calls and the returns of a run.

Outside of calls no statement comes to a returned value. What is open at a moment is a call that
the run has begun, and a call that has begun is open until it has ended. It ends when its body comes
to an end, whatever that is, with what its function yields: an initializer has come to its end or
has returned nil and yields the receiver, and another function yields what is returned or else nil.
What waits for the call expression is given that value in the environment of the caller. A value
that is returned ends the innermost call, and until then nothing else is done: no statement is
executed and no condition is evaluated. -/
theorem returns_disciplined (texts : List (Options × String)) (o : Options) (source : String)
    (r : Resolved) (hr : (ofTexts texts).accepted? source = some r) :
    let start := (ofTexts texts).launch r
    let setup := (ofTexts texts).setupFor o r
    (∀ n d completion k, start.after? setup n = some d → d.control = .complete completion k →
      k.activations = [] → completion = .normal) ∧
    (∀ n d inner a outer, start.after? setup n = some d →
      d.control.activations = inner ++ a :: outer →
      ∃ x : Call setup start, x.stack = a :: outer ∧ x.Open n) ∧
    (∀ (x : Call setup start) (n : Nat), x.start < n →
      x.Open n ∨ ∃ j completion, x.start < j ∧ j < n ∧ x.EndsAt j completion) ∧
    (∀ (x : Call setup start) (n : Nat) (d : Config) (completion : Completion), x.start < n →
      start.after? setup n = some d → d.control = .complete completion x.activation.cont →
      d.control.activations = x.stack → x.EndsAt n completion) ∧
    ∀ n d v k, start.after? setup n = some d → d.control.returned? = some (v, k) →
      ∃ x : Call setup start, x.Open n ∧ d.control.activations = x.stack ∧
        ∃ j, n < j ∧ x.EndsAt j (.returned v) ∧
          ∀ i, n < i → i ≤ j → ∃ e k, start.after? setup i = some e ∧
            e.control = .complete (.returned v) k := by
  intro start setup
  have hstart := governed_launch hr o
  refine ⟨?_, ?_, fun x n hn => x.open_or_ended hstart hn, ?_, ?_⟩
  · intro n d completion k hd hcontrol hk
    exact (hstart.after hd).eq_normal hcontrol hk
  · intro n d inner a outer hd hopen
    exact Call.exists_of_open rfl hd hopen
  · intro x n d completion hn hd hcontrol hstack
    exact x.endsAt hstart hn hd hcontrol hstack
  · intro n d v k hd hreturned
    exact Call.exists_of_returned hstart rfl hd hreturned

/-- An initializer returns from a block in a loop that would not end. -/
theorem returns_disciplined_initializer :
    let s := ofTexts [(Options.still, "class A { init() { while (true) { { return; } } } }")]
    ∃ r d v k, s.accepted? "A();" = some r ∧
      (s.launch r).after? (s.setupFor .still r) 13 = some d ∧ d.control.returned? = some (v, k) ∧
      ∃ (x : Call (s.setupFor .still r) (s.launch r)) (j : Nat),
        13 < j ∧ x.EndsAt j (.returned v) := by
  intro s
  have hmoment : ((s.accepted? "A();").bind fun r =>
      ((s.launch r).after? (s.setupFor .still r) 13).map (r, ·)).any (fun x =>
        x.2.control.returned?.isSome) := by
    decide +kernel
  obtain ⟨⟨r, d⟩, hmoment, hsome⟩ := (Option.any_eq_true ..).1 hmoment
  obtain ⟨r', hr, hmoment⟩ := Option.bind_eq_some_iff.1 hmoment
  obtain ⟨d', hd, hpair⟩ := Option.map_eq_some_iff.1 hmoment
  obtain ⟨rfl, rfl⟩ := Prod.mk.inj hpair
  obtain ⟨⟨v, k⟩, hreturned⟩ := Option.isSome_iff_exists.1 hsome
  obtain ⟨-, -, -, -, hreturns⟩ := returns_disciplined _ .still "A();" r' hr
  obtain ⟨x, -, -, j, hj, hends, -⟩ := hreturns 13 d' v k hd hreturned
  exact ⟨r', d', v, k, hr, hd, hreturned, x, j, hj, hends⟩

end Session

end Lox
