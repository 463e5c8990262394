import Lox.Proofs.Session.Resolutions
import Lox.Scope.Nodes

/-!
# The nodes of a session

The references that a session resolves are nodes with identities, which may be used again when a
node is gone. Still the table of distances answers for every node that is alive as if each had a
number of its own: what makes it so is that an entry holds its node, so that its identity is not
given to another.

## Main definitions

* `Nodes.Agrees`: a table by identities that is as good as distances by numbers
* `Session.MayHave`: the nodes that a session may have after texts

## Main results

* `Nodes.Agrees.distance?_eq`: what is looked up by identity is what is looked up by number
* `Nodes.Agrees.resolves`: parsing and resolving one more program keeps tables as good
* `Session.agrees_of_mayHave`: the table of a session is as good as its distances
* `Session.exists_mayHave`: the nodes of a session may all be alive
-/

namespace Lox

namespace Nodes

variable {m m' : Nodes} {l : Locals} {i j : Occurrence} {a b : Identity} {d : Nat}

/-- A table by identities is as good as distances by numbers. -/
structure Agrees (m : Nodes) (l : Locals) : Prop where
  /-- No two nodes that are alive have the same identity. -/
  apart : ∀ i j a, m.identity? i = some a → m.identity? j = some a → i = j
  /-- The node of an entry is alive, with the identity that the entry is under, and has its
  distance. -/
  entry : ∀ a i d, m.entry? a = some (i, d) → m.identity? i = some a ∧ l.distance? i = some d
  /-- A distance has an entry. -/
  held : ∀ i d, l.distance? i = some d → ∃ a, m.entry? a = some (i, d)

theorem agrees_empty : empty.Agrees {} where
  apart _ _ _ h := nomatch h
  entry _ _ _ h := nomatch h
  held _ _ h := by cases h

namespace Agrees

/-- What is looked up by the identity of a live node is what is looked up by its number. -/
theorem distance?_eq (h : m.Agrees l) (hi : m.Alive i) : m.distance? i = l.distance? i := by
  obtain ⟨a, ha⟩ := Option.isSome_iff_exists.1 hi
  have hlook : m.distance? i = (m.entry? a).map (·.2) := by rw [distance?, ha, Option.bind_some]
  rw [hlook]
  refine Option.ext fun d => ⟨fun hd => ?_, fun hd => ?_⟩
  · -- the entry holds a live node with this identity, and there is only one
    obtain ⟨⟨j, d'⟩, hentry, rfl⟩ := Option.map_eq_some_iff.1 hd
    obtain ⟨hj, hdistance⟩ := h.entry a j d' hentry
    rwa [← h.apart j i a hj ha]
  · obtain ⟨b, hentry⟩ := h.held i d hd
    obtain ⟨hb, -⟩ := h.entry b i d hentry
    obtain rfl : a = b := Option.some.inj (ha.symm.trans hb)
    rw [hentry, Option.map_some]

/-- A node has at most one entry. -/
theorem entry_unique (h : m.Agrees l) {d' : Nat} (ha : m.entry? a = some (i, d))
    (hb : m.entry? b = some (i, d')) : a = b ∧ d = d' := by
  obtain ⟨hia, hd⟩ := h.entry a i d ha
  obtain ⟨hib, hd'⟩ := h.entry b i d' hb
  exact ⟨Option.some.inj (hia.symm.trans hib), Option.some.inj (hd.symm.trans hd')⟩

theorem make (h : m.Agrees l) (hnone : l.distance? i = none)
    (hunused : ∀ j, m.identity? j ≠ some a) : (m.make i a).Agrees l where
  apart x y c hx hy := by
    simp only [Nodes.make] at hx hy
    split at hx <;> split at hy
    · next hxi hyi => rw [hxi, hyi]
    · exact absurd (hx ▸ hy) (hunused y)
    · exact absurd (hy ▸ hx) (hunused x)
    · exact h.apart x y c hx hy
  entry c x d hentry := by
    obtain ⟨hx, hd⟩ := h.entry c x d hentry
    -- a node that has a distance is not the new one
    have hne : x ≠ i := fun heq => by simp [heq, hnone] at hd
    exact ⟨by simp only [Nodes.make, if_neg hne, hx], hd⟩
  held := h.held

theorem free (h : m.Agrees l) (hloose : ¬ m.Holds i) : (m.free i).Agrees l where
  apart x y c hx hy := by
    simp only [Nodes.free, Option.ite_none_left_eq_some] at hx hy
    exact h.apart x y c hx.2 hy.2
  entry c x d hentry := by
    obtain ⟨hx, hd⟩ := h.entry c x d hentry
    -- a node that an entry holds does not go
    have hne : x ≠ i := fun heq => hloose ⟨c, d, heq ▸ hentry⟩
    exact ⟨by simp only [Nodes.free, if_neg hne, hx], hd⟩
  held := h.held

theorem record (h : m.Agrees l) (hi : m.Alive i) (hlt : i < l.next) :
    (m.record i d).Agrees (l.set i d) := by
  obtain ⟨a, ha⟩ := Option.isSome_iff_exists.1 hi
  rw [record_of_identity ha]
  refine ⟨h.apart, fun b x d' hentry => ?_, fun x d' hd => ?_⟩
  · simp only at hentry
    split at hentry
    · next hb =>
      obtain ⟨rfl, rfl⟩ := Prod.mk.inj (Option.some.inj hentry)
      exact ⟨hb ▸ ha, Locals.distance?_set_self hlt⟩
    · next hb =>
      obtain ⟨hx, hd⟩ := h.entry b x d' hentry
      have hne : x ≠ i := fun heq => hb (Option.some.inj ((heq ▸ hx).symm.trans ha))
      exact ⟨hx, by rwa [l.distance?_set_of_ne d hne]⟩
  · by_cases hx : x = i
    · subst hx
      rw [Locals.distance?_set_self hlt] at hd
      exact ⟨a, (if_pos rfl).trans (by rw [Option.some.inj hd])⟩
    · rw [l.distance?_set_of_ne d hx] at hd
      obtain ⟨b, hentry⟩ := h.held x d' hd
      obtain ⟨hb, -⟩ := h.entry b x d' hentry
      -- the identity of another live node is another one
      have hne : b ≠ a := fun heq => hx (h.apart x i a (heq ▸ hb) ha)
      exact ⟨b, by simp only [if_neg hne, hentry]⟩

theorem recordAll {entries : List (Occurrence × Nat)} (h : m.Agrees l)
    (halive : ∀ x ∈ entries, m.Alive x.1) (hlt : ∀ x ∈ entries, x.1 < l.next) :
    (m.recordAll entries).Agrees (l.setAll entries) := by
  induction entries generalizing m l with
  | nil => exact h
  | cons x rest ih =>
    refine ih (h.record (halive x (by simp)) (hlt x (by simp))) (fun y hy => ?_) fun y hy => ?_
    · rw [Alive, identity?_record]
      exact halive y (by simp [hy])
    · rw [Locals.next_set]
      exact hlt y (by simp [hy])

theorem makes {made : List Occurrence} (h : m.Agrees l) (hmakes : Makes made m m')
    (hnew : ∀ i ∈ made, l.next ≤ i) : m'.Agrees l := by
  induction hmakes with
  | done => exact h
  | make a hunused _ ih =>
    exact ih (h.make (Locals.distance?_of_next_le (hnew _ (by simp))) hunused) fun i hi =>
      hnew i (by simp [hi])
  | free j hloose _ ih => exact ih (h.free hloose) hnew

/-- Parsing and resolving one more program. -/
theorem resolves (h : m.Agrees l) {program : List (Stmt Unit)}
    (hm : Resolves (Resolved.ofProgram l.next program) m m') :
    m'.Agrees (l.record (Resolved.ofProgram l.next program)) := by
  have hnumbers := Locals.numbers_ofProgram l.next program
  obtain ⟨horder, hparse, halive⟩ := hm
  -- the nodes of the program have numbers that no distance was recorded for
  have hparsed := h.makes hparse fun i hi => (hnumbers.mem_iff.1 (horder.mem_iff.1 hi)).1
  have hreserved : Agrees _ (l.reserve (Resolved.ofProgram l.next program).next) :=
    ⟨hparsed.apart, by simpa only [Locals.distance?_reserve] using hparsed.entry,
      by simpa only [Locals.distance?_reserve] using hparsed.held⟩
  refine hreserved.recordAll (fun x hx => ?_) fun x hx => ?_
  · exact halive _ (horder.mem_iff.2 (Locals.mem_marksAll_of_mem_entries hx))
  · rw [l.next_reserve _ hnumbers.le]
    exact (hnumbers.mem_iff.1 (Locals.mem_marksAll_of_mem_entries hx)).2

end Agrees

/-- Nodes may be made with any identities that are different and not in use, and none of them has to
go. -/
theorem exists_makes (f : Occurrence → Identity) {made : List Occurrence} (hnodup : made.Nodup)
    (hf : ∀ i ∈ made, ∀ j ∈ made, f i = f j → i = j)
    (hunused : ∀ i ∈ made, ∀ j, m.identity? j ≠ some (f i)) :
    ∃ m', Makes made m m' ∧
      ∀ j, m'.identity? j = if j ∈ made then some (f j) else m.identity? j := by
  induction made generalizing m with
  | nil => exact ⟨m, .done m, by simp⟩
  | cons i rest ih =>
    obtain ⟨hi, hrest⟩ := List.nodup_cons.1 hnodup
    have hnext : ∀ x ∈ rest, ∀ j, (m.make i (f i)).identity? j ≠ some (f x) := fun x hx j hj => by
      simp only [Nodes.make] at hj
      split at hj
      · have hsame := hf i (by simp) x (by simp [hx]) (Option.some.inj hj)
        exact hi (hsame ▸ hx)
      · exact hunused x (by simp [hx]) j hj
    obtain ⟨m', hmakes, hidentity⟩ := ih hrest
      (fun x hx y hy => hf x (by simp [hx]) y (by simp [hy])) hnext
    refine ⟨m', .make (f i) (hunused i (by simp)) hmakes, fun j => ?_⟩
    rw [hidentity j]
    by_cases hji : j = i <;> simp [Nodes.make, hji]

@[simp] theorem identity?_recordAll (m : Nodes) (entries : List (Occurrence × Nat)) :
    (m.recordAll entries).identity? = m.identity? := by
  induction entries generalizing m with
  | nil => rfl
  | cons x rest ih => exact (ih _).trans (m.identity?_record x.1 x.2)

end Nodes

namespace Session

/-- The nodes that a session may have after texts: those of a text that can be parsed are made and
resolved, and between texts, as within them, nodes that no entry holds may go. What else is made,
also for texts that cannot be parsed, leaves fewer identities to choose from. -/
inductive MayHave : List (Options × String) → Nodes → Prop where
  | fresh : MayHave [] .empty
  | resolved {texts : List (Options × String)} {m m' : Nodes} {y : Resolution}
      (before : MayHave texts m) (x : Options × String)
      (text : (ofTexts texts).resolution? x.2 = some y) (nodes : Nodes.Resolves y.resolved m m') :
      MayHave (texts ++ [x]) m'
  | unparsed {texts : List (Options × String)} {m : Nodes} (before : MayHave texts m)
      (x : Options × String) (text : (ofTexts texts).resolution? x.2 = none) :
      MayHave (texts ++ [x]) m
  | free {texts : List (Options × String)} {m : Nodes} (before : MayHave texts m) (i : Occurrence)
      (loose : ¬ m.Holds i) : MayHave texts (m.free i)

variable {texts : List (Options × String)} {m : Nodes}

theorem locals_ofTexts_concat (texts : List (Options × String)) (x : Options × String) :
    (ofTexts (texts ++ [x])).locals =
      (((ofTexts texts).resolution? x.2).map (·.recorded)).getD (ofTexts texts).locals := by
  rw [← locals_run _ x.1, ofTexts_append]

/-- The numbers of the references of a text that comes next. -/
def nextMarks (texts : List (Options × String)) (source : String) : List Occurrence :=
  Stmt.marksAll (Resolved.ofProgram (ofTexts texts).locals.next (parse source).statements).body

theorem numbers_nextMarks (texts : List (Options × String)) (source : String) :
    Numbers (ofTexts texts).locals.next
      (Resolved.ofProgram (ofTexts texts).locals.next (parse source).statements).next
      (nextMarks texts source) :=
  Locals.numbers_ofProgram _ _

/-- The numbers of a session after one more text are those before it and those of the text. -/
theorem lt_next_concat_iff {x : Options × String} (hparse : (parse x.2).reports = [])
    {i : Occurrence} :
    i < (ofTexts (texts ++ [x])).locals.next ↔
      i < (ofTexts texts).locals.next ∨ i ∈ nextMarks texts x.2 := by
  have hnumbers := numbers_nextMarks texts x.2
  have hnext : (ofTexts (texts ++ [x])).locals.next =
      (Resolved.ofProgram (ofTexts texts).locals.next (parse x.2).statements).next := by
    rw [locals_ofTexts_concat, resolution?, if_pos (List.isEmpty_iff.2 hparse)]
    exact Locals.next_record hnumbers.le
  rw [hnext, hnumbers.mem_iff]
  constructor
  · intro h
    exact (Nat.lt_or_ge i _).imp_right fun hi => ⟨hi, h⟩
  · rintro (h | h)
    · exact Nat.lt_of_lt_of_le h hnumbers.le
    · exact h.2

/-- The table of a session is as good as its distances. -/
theorem agrees_of_mayHave (h : MayHave texts m) : m.Agrees (ofTexts texts).locals := by
  induction h with
  | fresh => exact Nodes.agrees_empty
  | @resolved texts m m' y before x text nodes ih =>
    rw [locals_ofTexts_concat, text]
    unfold resolution? at text
    split at text <;> cases text
    exact ih.resolves nodes
  | unparsed before x text ih =>
    rw [locals_ofTexts_concat, text]
    exact ih
  | free before i loose ih => exact ih.free loose

/-- What is looked up by identity in a session. -/
theorem distance?_of_mayHave {i : Occurrence} (h : MayHave texts m) (hi : m.Alive i) :
    m.distance? i = (ofTexts texts).locals.distance? i :=
  (agrees_of_mayHave h).distance?_eq hi

/-! ## Which identities there may be -/

/-- The nodes of one more text may be made with any identities that are different and not in use. -/
theorem MayHave.exists_text (h : MayHave texts m) {x : Options × String}
    (hparse : (parse x.2).reports = []) (f : Occurrence → Identity)
    (hf : ∀ i ∈ nextMarks texts x.2, ∀ j ∈ nextMarks texts x.2, f i = f j → i = j)
    (hunused : ∀ i ∈ nextMarks texts x.2, ∀ j, m.identity? j ≠ some (f i)) :
    ∃ m', MayHave (texts ++ [x]) m' ∧ ∀ j,
      m'.identity? j = if j ∈ nextMarks texts x.2 then some (f j) else m.identity? j := by
  have hnodup := (numbers_nextMarks texts x.2).nodup
  obtain ⟨parsed, hparsed, hidentity⟩ := Nodes.exists_makes f hnodup hf hunused
  have halive : ∀ i ∈ nextMarks texts x.2, parsed.Alive i := fun i hi =>
    Option.isSome_iff_exists.2 ⟨f i, (hidentity i).trans (if_pos hi)⟩
  have hresolves := Nodes.Resolves.mk
    (r := Resolved.ofProgram (ofTexts texts).locals.next (parse x.2).statements) (.refl _) hparsed
    halive
  refine ⟨_, .resolved h x (if_pos (List.isEmpty_iff.2 hparse)) hresolves, fun j => ?_⟩
  rw [Nodes.identity?_recordAll, hidentity]

/-- A session may have all the nodes that it made, with their numbers as identities: none of them
has to go. -/
theorem exists_mayHave (texts : List (Options × String)) :
    ∃ m, MayHave texts m ∧
      ∀ i, m.identity? i = if i < (ofTexts texts).locals.next then some ⟨i⟩ else none := by
  induction texts using List.reverseRecOn with
  | nil => exact ⟨.empty, .fresh, fun i => (if_neg (Nat.not_lt_zero i)).symm⟩
  | append_singleton texts x ih =>
    obtain ⟨m, hm, hidentity⟩ := ih
    by_cases hparse : (parse x.2).reports = []
    · have hunused : ∀ i ∈ nextMarks texts x.2, ∀ j, m.identity? j ≠ some ⟨i⟩ := by
        intro i hi j hj
        rw [hidentity] at hj
        obtain ⟨hlt, hsame⟩ := Option.ite_none_right_eq_some.1 hj
        obtain rfl : j = i := congrArg Identity.index (Option.some.inj hsame)
        exact absurd hlt (Nat.not_lt.2 ((numbers_nextMarks texts x.2).mem_iff.1 hi).1)
      obtain ⟨m', hm', hidentity'⟩ := hm.exists_text hparse Identity.mk
        (fun i _ j _ h => congrArg Identity.index h) hunused
      refine ⟨m', hm', fun i => ?_⟩
      rw [hidentity', hidentity]
      simp only [lt_next_concat_iff hparse]
      by_cases hi : i ∈ nextMarks texts x.2 <;> simp [hi]
    · have hx : (ofTexts texts).resolution? x.2 = none := if_neg (mt List.isEmpty_iff.1 hparse)
      refine ⟨m, .unparsed hm x hx, fun i => ?_⟩
      rw [locals_ofTexts_concat, hx, hidentity]
      rfl

/-- A node that no entry holds may go, and its identity become that of any node of the next text,
while all other nodes stay alive. -/
theorem exists_mayHave_reused (texts : List (Options × String)) (x : Options × String)
    (hparse : (parse x.2).reports = []) {i j : Occurrence} (hi : i < (ofTexts texts).locals.next)
    (hnone : (ofTexts texts).locals.distance? i = none) (hj : j ∈ nextMarks texts x.2) :
    ∃ m m', MayHave texts m ∧ MayHave (texts ++ [x]) m' ∧ m.Alive i ∧
      m'.identity? j = m.identity? i ∧
      ∀ k, k < (ofTexts (texts ++ [x])).locals.next → k ≠ i → m'.Alive k := by
  obtain ⟨m, hm, hidentity⟩ := exists_mayHave texts
  have hloose : ¬ m.Holds i := by
    rintro ⟨a, d, hentry⟩
    simpa [hnone] using ((agrees_of_mayHave hm).entry a i d hentry).2
  have hlater : ∀ k ∈ nextMarks texts x.2, i ≠ k ∧ (ofTexts texts).locals.next ≤ k := fun k hk =>
    have hle := ((numbers_nextMarks texts x.2).mem_iff.1 hk).1
    ⟨Nat.ne_of_lt (Nat.lt_of_lt_of_le hi hle), hle⟩
  -- the new node takes the identity, and the others of its text have their numbers
  have hdifferent : ∀ a ∈ nextMarks texts x.2, ∀ b ∈ nextMarks texts x.2,
      Identity.mk (if a = j then i else a) = ⟨if b = j then i else b⟩ → a = b := by
    intro a ha b hb h
    have hsame := congrArg Identity.index h
    simp only at hsame
    split at hsame <;> split at hsame
    · next ha' hb' => rw [ha', hb']
    · exact absurd hsame (hlater b hb).1
    · exact absurd hsame.symm (hlater a ha).1
    · exact hsame
  have hunused : ∀ a ∈ nextMarks texts x.2, ∀ k,
      (m.free i).identity? k ≠ some ⟨if a = j then i else a⟩ := by
    intro a ha k hk
    simp only [Nodes.free, hidentity, Option.ite_none_left_eq_some,
      Option.ite_none_right_eq_some] at hk
    obtain ⟨hki, hlt, hk⟩ := hk
    have hsame := congrArg Identity.index (Option.some.inj hk)
    simp only at hsame
    split at hsame
    · exact hki hsame
    · exact absurd (hsame ▸ hlt) (Nat.not_lt.2 (hlater a ha).2)
  obtain ⟨m', hm', hidentity'⟩ :=
    (hm.free i hloose).exists_text hparse (fun k => ⟨if k = j then i else k⟩) hdifferent hunused
  refine ⟨m, m', hm, hm', ?_, ?_, fun k hk hki => ?_⟩
  · rw [Nodes.Alive, hidentity, if_pos hi]
    rfl
  · rw [hidentity', if_pos hj, hidentity, if_pos hi, if_pos rfl]
  · rw [Nodes.Alive, hidentity']
    split
    · rfl
    · next hk' =>
      have hold := ((lt_next_concat_iff hparse).1 hk).resolve_right hk'
      simp [Nodes.free, hki, hidentity, hold]

end Session

end Lox
