import Sentential.Assignment.Order
import Sentential.Proofs.Evaluation

/-!
# The search finds the models

The search threads one working assignment through a binary recursion: it binds
an atom to false, searches, binds it to true over the old entry, searches
again, and takes the entry away. Whether an entry is left over from a sibling
is a question about the assignment it hands back, so that has to be in the
statement. `search_eq` says both at once: for atoms that the working assignment
does not bind yet, the search hands it back as it was and lists those of its
extensions by these atoms under which the formula is true.

What is left is about extensions and not about formulas. The extensions of the
empty assignment by the atoms of a set are the assignments that bind exactly
these atoms, each of them once, and they are listed in ascending order: two of
them agree up to the first atom that they bind differently, and there the
search takes false before true.
-/

namespace Sentential

namespace Assignment

/-- The ways to bind the given atoms over what the assignment binds, in the
order of the search. -/
def extensions : List Atom → Assignment → List Assignment
  | [], m => [m]
  | a :: rest, m => extensions rest (m.insert a false) ++ extensions rest (m.insert a true)

theorem mem_extensions_cons {a : Atom} {rest : List Atom} {m n : Assignment} :
    n ∈ extensions (a :: rest) m ↔ ∃ v, n ∈ extensions rest (m.insert a v) := by
  rw [extensions, List.mem_append]
  refine ⟨?_, ?_⟩
  · rintro (h | h)
    · exact ⟨false, h⟩
    · exact ⟨true, h⟩
  · rintro ⟨v, h⟩
    cases v with
    | false => exact .inl h
    | true => exact .inr h

/-- An extension binds the given atoms somehow and the others as before. -/
theorem mem_extensions {as : List Atom} {m n : Assignment} :
    n ∈ extensions as m ↔ (∀ a ∈ as, a ∈ n) ∧ ∀ a, a ∉ as → n.get? a = m.get? a := by
  induction as generalizing m with
  | nil =>
      rw [extensions, List.mem_singleton]
      refine ⟨fun h => ⟨List.forall_mem_nil _, fun a _ => by rw [h]⟩, fun h => ?_⟩
      exact ext fun a => h.2 a List.not_mem_nil
  | cons a rest ih =>
      rw [mem_extensions_cons, List.forall_mem_cons]
      simp only [ih, get?_insert, List.mem_cons, not_or]
      refine ⟨?_, ?_⟩
      · rintro ⟨v, hbinds, hkeeps⟩
        refine ⟨⟨?_, hbinds⟩, fun b hb => ?_⟩
        · by_cases ha : a ∈ rest
          · exact hbinds a ha
          · exact mem_iff.2 ⟨v, by rw [hkeeps a ha, if_pos rfl]⟩
        · rw [hkeeps b hb.2, if_neg hb.1]
      · rintro ⟨⟨ha, hbinds⟩, hkeeps⟩
        obtain ⟨v, hv⟩ := mem_iff.1 ha
        refine ⟨v, hbinds, fun b hb => ?_⟩
        by_cases hba : b = a
        · rw [if_pos hba, hba, hv]
        · rw [if_neg hba, hkeeps b ⟨hba, hb⟩]

/-! ## Ascending order -/

/-- A new greatest atom goes to the end. -/
theorem entries_insert {m : Assignment} {a : Atom} (h : ∀ b ∈ m, b < a) (v : Bool) :
    (m.insert a v).entries = m.entries ++ [(a, v)] :=
  Ascending.insert_of_forall_rel (α := Atom × Bool) (r := (·.1 < ·.1)) (x := (a, v))
    (fun _ _ => Atom.lt_asymm) fun e he => h e.1 (List.mem_map.2 ⟨e, he, rfl⟩)

theorem forall_mem_insert_lt {m : Assignment} {a : Atom} {rest : List Atom}
    (has : (a :: rest).Pairwise (· < ·)) (hm : ∀ b ∈ m, ∀ c ∈ a :: rest, b < c) (v : Bool) :
    ∀ b ∈ m.insert a v, ∀ c ∈ rest, b < c := by
  intro b hb c hc
  rcases mem_insert.1 hb with rfl | hb
  · exact (List.pairwise_cons.1 has).1 c hc
  · exact hm b hb c (List.mem_cons_of_mem a hc)

/-- Greater atoms leave the entries that are there in front. -/
theorem entries_prefix_of_mem_extensions {as : List Atom} {m n : Assignment}
    (has : as.Pairwise (· < ·)) (hm : ∀ b ∈ m, ∀ a ∈ as, b < a) (h : n ∈ extensions as m) :
    m.entries <+: n.entries := by
  induction as generalizing m with
  | nil =>
      obtain rfl : n = m := List.mem_singleton.1 h
      exact List.prefix_rfl
  | cons a rest ih =>
      obtain ⟨v, hv⟩ := mem_extensions_cons.1 h
      have hins : (m.insert a v).entries <+: n.entries :=
        ih (List.pairwise_cons.1 has).2 (forall_mem_insert_lt has hm v) hv
      rw [entries_insert (fun b hb => hm b hb a List.mem_cons_self)] at hins
      exact (List.prefix_append _ _).trans hins

theorem compareEntries_append (es fs gs : List (Atom × Bool)) :
    compareEntries (es ++ fs) (es ++ gs) = compareEntries fs gs := by
  induction es with
  | nil => rfl
  | cons e es ih =>
      have he : compareEntry e e = .eq := Std.ReflCmp.compare_self
      rw [List.cons_append, List.cons_append, compareEntries, List.compareLex_cons_cons, he]
      exact ih

/-- Where the first difference is the value of one atom, false comes first. -/
theorem compare_eq_lt {m n : Assignment} {es : List (Atom × Bool)} {a : Atom}
    (hm : es ++ [(a, false)] <+: m.entries) (hn : es ++ [(a, true)] <+: n.entries) :
    compare m n = .lt := by
  obtain ⟨fs, hfs⟩ := hm
  obtain ⟨gs, hgs⟩ := hn
  have hentry : compareEntry (a, false) (a, true) = .lt := by
    have ha : compare a a = .eq := Std.ReflCmp.compare_self
    show (compare a a).then (compare false true) = .lt
    rw [ha]
    rfl
  show compareEntries m.entries n.entries = .lt
  rw [← hfs, ← hgs, List.append_assoc, List.append_assoc, compareEntries_append]
  show List.compareLex compareEntry ((a, false) :: fs) ((a, true) :: gs) = .lt
  rw [List.compareLex_cons_cons, hentry]
  rfl

/-- By atoms in ascending order, greater than those that are bound, the
extensions are listed in ascending order too. -/
theorem pairwise_extensions {as : List Atom} {m : Assignment} (has : as.Pairwise (· < ·))
    (hm : ∀ b ∈ m, ∀ a ∈ as, b < a) :
    (extensions as m).Pairwise fun n o => compare n o = .lt := by
  induction as generalizing m with
  | nil => exact List.pairwise_singleton _ m
  | cons a rest ih =>
      have hrest : rest.Pairwise (· < ·) := (List.pairwise_cons.1 has).2
      have hinsert := fun v => forall_mem_insert_lt has hm v
      rw [extensions]
      refine List.pairwise_append.2 ⟨ih hrest (hinsert false), ih hrest (hinsert true), ?_⟩
      intro n hn o ho
      have hlast : ∀ b ∈ m, b < a := fun b hb => hm b hb a List.mem_cons_self
      have hn := entries_prefix_of_mem_extensions hrest (hinsert false) hn
      have ho := entries_prefix_of_mem_extensions hrest (hinsert true) ho
      rw [entries_insert hlast] at hn ho
      exact compare_eq_lt hn ho

/-! ## The assignments to the atoms of a set -/

/-- The assignments that bind exactly the atoms of a set. -/
def table (s : AtomSet) : List Assignment := extensions s.toList ∅

theorem mem_table {s : AtomSet} {m : Assignment} : m ∈ table s ↔ m.keys = s := by
  rw [table, mem_extensions]
  refine ⟨fun h => AtomSet.ext fun a => ⟨fun ha => ?_, fun ha => h.1 a ha⟩, ?_⟩
  · refine Decidable.byContradiction fun hs => ?_
    exact get?_eq_none_iff.1 (h.2 a hs) ha
  · rintro rfl
    exact ⟨fun a ha => ha, fun a ha => get?_eq_none_iff.2 ha⟩

theorem pairwise_table (s : AtomSet) : (table s).Pairwise fun m n => compare m n = .lt :=
  pairwise_extensions s.ascending fun b hb => absurd hb (AtomSet.not_mem_empty b)

/-- The entries for the atoms of a set. -/
def restrict (m : Assignment) (s : AtomSet) : Assignment :=
  ⟨m.entries.filter (fun e => e.1 ∈ s), m.ascending.filter _⟩

theorem get?_restrict {m : Assignment} {s : AtomSet} {a : Atom} (h : a ∈ s) :
    (m.restrict s).get? a = m.get? a := by
  refine Option.ext fun v => ?_
  rw [get?_eq_some_iff, get?_eq_some_iff]
  exact List.mem_filter.trans (and_iff_left (decide_eq_true h))

theorem mem_restrict {m : Assignment} {s : AtomSet} {a : Atom} :
    a ∈ m.restrict s ↔ a ∈ m ∧ a ∈ s := by
  refine ⟨fun h => ?_, fun h => ?_⟩
  · obtain ⟨e, he, rfl⟩ := List.mem_map.1 h
    obtain ⟨hmem, hs⟩ := List.mem_filter.1 he
    exact ⟨List.mem_map.2 ⟨e, hmem, rfl⟩, of_decide_eq_true hs⟩
  · obtain ⟨v, hv⟩ := mem_iff.1 h.1
    exact mem_iff.2 ⟨v, by rw [get?_restrict h.2, hv]⟩

theorem Covers.keys_restrict {m : Assignment} {f : Formula} (h : m.Covers f) :
    (m.restrict f.atoms).keys = f.atoms :=
  AtomSet.ext fun a => mem_restrict.trans ⟨fun ha => ha.2, fun ha => ⟨h a ha, ha⟩⟩

theorem covers_of_keys_eq {m : Assignment} {f : Formula} (h : m.keys = f.atoms) : m.Covers f := by
  intro a ha
  rw [← h] at ha
  exact ha

end Assignment

/-! ## The search -/

namespace Formula

open Assignment

/-- Over atoms that are not bound yet the search lists the true extensions and
leaves the working assignment as it was. -/
theorem search_eq (f : Formula) {as : List Atom} {m : Assignment} (hnodup : as.Nodup)
    (hnew : ∀ a ∈ as, a ∉ m) :
    f.search as m = ((extensions as m).filter (f.value ·), m) := by
  induction as generalizing m with
  | nil => cases hv : f.value m <;> simp [search, extensions, hv]
  | cons a rest ih =>
      obtain ⟨ha, hrest⟩ := List.nodup_cons.1 hnodup
      have hinsert : ∀ v, f.search rest (m.insert a v) =
          ((extensions rest (m.insert a v)).filter (f.value ·), m.insert a v) := by
        intro v
        refine ih hrest fun b hb hmem => ?_
        rcases mem_insert.1 hmem with rfl | hmem
        · exact ha hb
        · exact hnew b (List.mem_cons_of_mem a hb) hmem
      -- The second search starts from what the first one handed back.
      simp only [search, hinsert false, insert_insert, hinsert true]
      rw [erase_insert (hnew a List.mem_cons_self), extensions, List.filter_append]

/-- The assignments to exactly the free atoms that make the formula true. -/
def satisfying (f : Formula) : List Assignment :=
  (table f.atoms).filter (f.value ·)

/-- The models of a well-formed formula exist. -/
theorem models_eq {f : Formula} (h : f.WellFormed) : f.models = .ok f.satisfying := by
  rw [models, if_pos h, search_eq f f.atoms.nodup fun a _ => AtomSet.not_mem_empty a]
  rfl

theorem mem_satisfying {f : Formula} {m : Assignment} :
    m ∈ f.satisfying ↔ m.keys = f.atoms ∧ f.value m = true := by
  rw [satisfying, List.mem_filter, mem_table]

theorem pairwise_satisfying (f : Formula) :
    f.satisfying.Pairwise fun m n => compare m n = .lt :=
  (pairwise_table f.atoms).filter _

/-- A covering assignment makes a formula true exactly if what it has for the
free atoms does. -/
theorem restrict_mem_satisfying {f : Formula} {m : Assignment} (h : m.Covers f) :
    m.restrict f.atoms ∈ f.satisfying ↔ f.value m = true := by
  have hvalue : f.value (m.restrict f.atoms) = f.value m :=
    value_congr fun a ha => get?_restrict ha
  rw [mem_satisfying, hvalue]
  exact and_iff_right h.keys_restrict

/-- The models of a well-formed formula are exactly the assignments to its free
atoms, to all of them and no others, under which it evaluates to true; and a
covering assignment makes it true exactly if what it has for these atoms is a
model. -/
theorem models_are_the_true_assignments {f : Formula} (h : f.WellFormed) :
    ∃ ms, f.models = .ok ms ∧
      (∀ m, m ∈ ms ↔ m.keys = f.atoms ∧ f.evaluate m = .ok true) ∧
      (∀ m : Assignment, m.Covers f → (f.evaluate m = .ok true ↔ m.restrict f.atoms ∈ ms)) ∧
      (f.atoms = ∅ → ms = [∅] ∨ ms = []) ∧
      (∀ m ∈ ms, ∀ a ∈ f.atoms, a ∈ m) := by
  refine ⟨f.satisfying, models_eq h, ?_, ?_, ?_, ?_⟩
  · intro m
    rw [mem_satisfying]
    refine and_congr_right fun hkeys => ?_
    rw [evaluate_of_covers h (covers_of_keys_eq hkeys), Except.ok.injEq]
  · intro m hm
    rw [restrict_mem_satisfying hm, evaluate_of_covers h hm, Except.ok.injEq]
  · intro hatoms
    have htable : table f.atoms = [∅] := by
      rw [hatoms]
      rfl
    rw [satisfying, htable]
    cases hv : f.value ∅ with
    | true => exact .inl (by simp [hv])
    | false => exact .inr (by simp [hv])
  · intro m hm a ha
    exact covers_of_keys_eq (mem_satisfying.1 hm).1 a ha

/-- `A | (B & F)`, where `B` has no influence. -/
def idleRight : Formula :=
  binary .or (atom ⟨'A'⟩) (binary .and (atom ⟨'B'⟩) (atom .falsum))

/-- An entry for `Z` is left out, the one for `B` is not. -/
theorem models_are_the_true_assignments_idle :
    idleRight.WellFormed ∧
      (Assignment.ofList [(⟨'A'⟩, true), (⟨'B'⟩, false), (⟨'Z'⟩, true)]).Covers idleRight ∧
      (atom .verum).WellFormed ∧ (atom .verum).atoms = ∅ ∧
      ∃ ms, idleRight.models = .ok ms ∧
        Assignment.ofList [(⟨'A'⟩, true), (⟨'B'⟩, false)] ∈ ms ∧ (∀ m ∈ ms, ⟨'B'⟩ ∈ m) ∧
        ∃ ns, (atom .verum).models = .ok ns ∧ ns = [∅] := by
  have hw : idleRight.WellFormed := by decide
  have hverum : (atom .verum).WellFormed := by decide
  have hcovers :
      (Assignment.ofList [(⟨'A'⟩, true), (⟨'B'⟩, false), (⟨'Z'⟩, true)]).Covers idleRight := by
    show ∀ a ∈ idleRight.atoms.toList, a ∈ Assignment.ofList _
    decide
  obtain ⟨ms, hms, _, hcovering, _, hbinds⟩ := models_are_the_true_assignments hw
  obtain ⟨ns, hns, hmem, _, hempty, _⟩ := models_are_the_true_assignments hverum
  refine ⟨hw, hcovers, hverum, rfl, ms, hms, (hcovering _ hcovers).1 rfl, fun m hm => ?_,
    ns, hns, ?_⟩
  · exact hbinds m hm ⟨'B'⟩ (by decide)
  · rcases hempty rfl with h | h
    · exact h
    · have hmodel : ∅ ∈ ns := (hmem ∅).2 ⟨rfl, rfl⟩
      rw [h] at hmodel
      cases hmodel

end Formula

end Sentential
