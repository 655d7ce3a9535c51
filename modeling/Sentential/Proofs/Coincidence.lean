import Sentential.Proofs.Evaluation

/-!
# An evaluation sees the entries of the free atoms and no others

Three walks over the formula stand behind an evaluation: one for its letters, one for
its free atoms, and one for its value. Each decides for itself what counts as an atom
to look up, and only the last one looks. It has a truth value ready for an atom without
an entry, so it could return something even where an entry is missing, and it passes
over the constants, which the second walk has to leave out for the same reason.

That the three agree comes down to the truth value as a function of what the atoms are
worth (`valueBy`): it depends on the free atoms alone. Two assignments with the same
entries for them cannot be told apart. The value that stands in for a missing entry is
a case of it too. Where an evaluation returns, every free atom has its entry, so anything
could stand in there, and what is returned is the truth value in the usual sense
(`Holds`).
-/

namespace Sentential.Formula

/-! ## Truth -/

/-- Truth in the usual sense, where the atoms that `v` holds of are true. The constants
are true and false whatever it says of them. -/
def Holds (v : Atom → Prop) : Formula → Prop
  | atom a => a = .verum ∨ a ≠ .falsum ∧ v a
  | not f => ¬ f.Holds v
  | binary .and l r => l.Holds v ∧ r.Holds v
  | binary .or l r => l.Holds v ∨ r.Holds v
  | binary .imply l r => l.Holds v → r.Holds v
  | binary .iff l r => l.Holds v ↔ r.Holds v

theorem valueBy_eq_true_iff {v : Atom → Bool} {f : Formula} :
    f.valueBy v = true ↔ f.Holds (v · = true) := by
  induction f with
  | atom a =>
      by_cases ht : a = .verum
      · simp [valueBy, Holds, ht]
      · by_cases hf : a = .falsum
        · simp [valueBy, Holds, hf, Atom.verum, Atom.falsum]
        · simp [valueBy, Holds, ht, hf]
  | not f ih => rw [valueBy, Holds, ← ih, Bool.not_eq_true', Bool.not_eq_true]
  | binary c l r ihl ihr =>
      cases c with
      | and => rw [Holds, ← ihl, ← ihr, valueBy, Connective.apply, Bool.and_eq_true]
      | or => rw [Holds, ← ihl, ← ihr, valueBy, Connective.apply, Bool.or_eq_true]
      | imply =>
          rw [Holds, ← ihl, ← ihr, valueBy, Connective.apply]
          cases l.valueBy v <;> simp
      | iff => rw [Holds, ← ihl, ← ihr, valueBy, Connective.apply, beq_iff_eq, Bool.eq_iff_iff]

/-- Under an assignment, the atoms with the entry true are true and no others. -/
theorem value_eq_true_iff {m : Assignment} {f : Formula} :
    f.value m = true ↔ f.Holds (m.get? · = some true) := by
  have hentry : ∀ a, (m.get? a).getD false = true ↔ m.get? a = some true := by
    intro a
    cases m.get? a <;> simp
  rw [value_eq_valueBy, valueBy_eq_true_iff]
  simp only [hentry]

/-- What stands in for missing entries does not matter where none is missing. -/
theorem valueBy_getD {m : Assignment} {f : Formula} (hm : m.Covers f) (d : Atom → Bool) :
    (f.valueBy fun a => (m.get? a).getD (d a)) = f.value m := by
  rw [value_eq_valueBy]
  refine valueBy_congr fun a ha => ?_
  obtain ⟨v, hv⟩ := Assignment.mem_iff.1 (hm a ha)
  rw [hv, Option.getD_some, Option.getD_some]

/-! ## The outcomes of an evaluation -/

theorem evaluate_eq_malformed_iff {f : Formula} {m : Assignment} :
    f.evaluate m = .error .malformed ↔ ¬ f.WellFormed := by
  refine ⟨fun h hf => ?_, fun hf => if_neg hf⟩
  rcases evaluate_cases hf m with heval | ⟨a, -, -, heval⟩
  · cases heval.symm.trans h
  · cases heval.symm.trans h

theorem evaluate_eq_unassigned_iff {f : Formula} {m : Assignment} {a : Atom}
    (hf : f.WellFormed) : f.evaluate m = .error (.unassigned a) ↔ f.IsLeastUnassigned m a := by
  refine ⟨fun h => ?_, evaluate_of_isLeastUnassigned hf⟩
  rw [evaluate, if_pos hf] at h
  cases hu : f.unassigned? m with
  | none =>
      rw [hu] at h
      cases h
  | some b =>
      rw [hu] at h
      cases h
      exact unassigned?_eq_some_iff.1 hu

/-- A value is returned exactly if no entry is missing, and it is the truth value. -/
theorem evaluate_eq_ok_iff {f : Formula} {m : Assignment} {b : Bool} (hf : f.WellFormed) :
    f.evaluate m = .ok b ↔ m.Covers f ∧ f.value m = b := by
  refine ⟨fun h => ?_, fun h => h.2 ▸ evaluate_of_covers hf h.1⟩
  cases hu : f.unassigned? m with
  | none =>
      have hm : m.Covers f := unassigned?_eq_none_iff.1 hu
      rw [evaluate_of_covers hf hm] at h
      exact ⟨hm, Except.ok.inj h⟩
  | some a =>
      have hleast : f.IsLeastUnassigned m a := unassigned?_eq_some_iff.1 hu
      cases (evaluate_of_isLeastUnassigned hf hleast).symm.trans h

/-- Entries are missing exactly if there is a least atom whose entry is. -/
theorem exists_isLeastUnassigned_iff {f : Formula} {m : Assignment} :
    (∃ a, f.IsLeastUnassigned m a) ↔ ∃ a ∈ f.atoms, a ∉ m := by
  refine ⟨fun ⟨a, ha⟩ => ⟨a, ha.mem_atoms, ha.notMem⟩, fun ⟨a, ha, hm⟩ => ?_⟩
  cases hu : f.unassigned? m with
  | none => exact absurd (unassigned?_eq_none_iff.1 hu a ha) hm
  | some b => exact ⟨b, unassigned?_eq_some_iff.1 hu⟩

theorem wellFormed_of_evaluate {f : Formula} {m : Assignment} {b : Bool}
    (h : f.evaluate m = .ok b) : f.WellFormed := by
  refine Decidable.byContradiction fun hf => ?_
  cases (evaluate_eq_malformed_iff.2 hf).symm.trans h

/-! ## What an evaluation sees -/

/-- Assignments that have the same for the free atoms, entries or none, have the same
outcome, whichever it is. -/
theorem evaluate_congr {f : Formula} {m n : Assignment}
    (h : ∀ a ∈ f.atoms, m.get? a = n.get? a) : f.evaluate m = f.evaluate n := by
  have hmem : ∀ a ∈ f.atoms, a ∈ m ↔ a ∈ n := by
    intro a ha
    rw [Assignment.mem_iff, Assignment.mem_iff, h a ha]
  by_cases hf : f.WellFormed
  · cases hu : f.unassigned? m with
    | none =>
        have hm : m.Covers f := unassigned?_eq_none_iff.1 hu
        have hn : n.Covers f := fun a ha => (hmem a ha).1 (hm a ha)
        rw [evaluate_of_covers hf hm, evaluate_of_covers hf hn, value_congr h]
    | some a =>
        have hm : f.IsLeastUnassigned m a := unassigned?_eq_some_iff.1 hu
        have hn : f.IsLeastUnassigned n a := by
          refine ⟨hm.mem_atoms, fun ha => hm.notMem ((hmem a hm.mem_atoms).2 ha), ?_⟩
          intro b hb hbn
          exact hm.least b hb fun hbm => hbn ((hmem b hb).1 hbm)
        rw [evaluate_of_isLeastUnassigned hf hm, evaluate_of_isLeastUnassigned hf hn]
  · rw [evaluate_eq_malformed_iff.2 hf, evaluate_eq_malformed_iff.2 hf]

theorem ne_of_mem_atoms {f : Formula} {a b : Atom} (ha : a.IsConstant) (hb : b ∈ f.atoms) :
    b ≠ a := by
  intro heq
  subst heq
  induction f with
  | atom c =>
      obtain ⟨rfl, hc⟩ := mem_atoms_atom.1 hb
      exact hc ha
  | not f ih => exact ih hb
  | binary c l r ihl ihr =>
      rcases mem_atoms_binary.1 hb with hb | hb
      · exact ihl hb
      · exact ihr hb

/-- An entry for a constant can be made, changed or taken away. -/
theorem evaluate_constant {a : Atom} (ha : a.IsConstant) (f : Formula) (m : Assignment) :
    (∀ b, f.evaluate (m.insert a b) = f.evaluate m) ∧ f.evaluate (m.erase a) = f.evaluate m := by
  refine ⟨fun b => evaluate_congr fun c hc => ?_, evaluate_congr fun c hc => ?_⟩
  · rw [Assignment.get?_insert, if_neg (ne_of_mem_atoms ha hc)]
  · rw [Assignment.get?_erase, if_neg (ne_of_mem_atoms ha hc)]

/-- The outcome of an evaluation is an error on a formula that is not well-formed, an
error that names the least free atom without an entry if there is one, and the truth
value of the formula otherwise. It is the same under any two assignments that have the
same for the free atoms; entries for the constants, in particular, change nothing. And
although false is taken for the value of an atom without an entry, a value that is
returned does not depend on that. -/
theorem evaluation_sees_free_atoms (f : Formula) :
    (∀ m, f.evaluate m = .error .malformed ↔ ¬ f.WellFormed) ∧
    (f.WellFormed → ∀ m : Assignment,
      ((∃ a, f.evaluate m = .error (.unassigned a)) ↔ ∃ a ∈ f.atoms, a ∉ m) ∧
      (∀ a, f.evaluate m = .error (.unassigned a) ↔ f.IsLeastUnassigned m a) ∧
      ((∃ b, f.evaluate m = .ok b) ↔ ∀ a ∈ f.atoms, a ∈ m) ∧
      ∀ b, f.evaluate m = .ok b → (b = true ↔ f.Holds (m.get? · = some true))) ∧
    (∀ m n : Assignment, (∀ a ∈ f.atoms, m.get? a = n.get? a) → f.evaluate m = f.evaluate n) ∧
    (∀ (m : Assignment) (a : Atom), a.IsConstant →
      (∀ b, f.evaluate (m.insert a b) = f.evaluate m) ∧ f.evaluate (m.erase a) = f.evaluate m) ∧
    (∀ m : Assignment, f.value m = f.valueBy fun a => (m.get? a).getD false) ∧
    ∀ (m : Assignment) b, f.evaluate m = .ok b → ∀ d : Atom → Bool,
      (f.valueBy fun a => (m.get? a).getD (d a)) = b := by
  refine ⟨fun m => evaluate_eq_malformed_iff, fun hf m => ⟨?_, ?_, ?_, ?_⟩,
    fun m n => evaluate_congr, fun m a ha => evaluate_constant ha f m, fun m =>
    value_eq_valueBy m f, fun m b hb d => ?_⟩
  · simp only [evaluate_eq_unassigned_iff hf, exists_isLeastUnassigned_iff]
  · intro a
    exact evaluate_eq_unassigned_iff hf
  · simp only [evaluate_eq_ok_iff hf, exists_and_left, exists_eq', and_true]
    rfl
  · intro b hb
    rw [← value_eq_true_iff, ((evaluate_eq_ok_iff hf).1 hb).2]
  · obtain ⟨hm, hvalue⟩ := (evaluate_eq_ok_iff (wellFormed_of_evaluate hb)).1 hb
    rw [valueBy_getD hm, hvalue]

/-- `A & (T -> B)`. -/
def guarded : Formula :=
  binary .and (atom ⟨'A'⟩) (binary .imply (atom .verum) (atom ⟨'B'⟩))

/-- Without an entry for `B` there is no value, and with one for `T` it is the same. -/
theorem evaluation_sees_free_atoms_guarded :
    guarded.WellFormed ∧
      guarded.evaluate (.ofList [(⟨'A'⟩, true), (.verum, false)]) =
        .error (.unassigned ⟨'B'⟩) ∧
      guarded.evaluate
        ((Assignment.ofList [(⟨'A'⟩, true), (⟨'B'⟩, true)]).insert .verum false) = .ok true ∧
      guarded.Holds
        ((Assignment.ofList [(⟨'A'⟩, true), (⟨'B'⟩, true)]).get? · = some true) ∧
      (guarded.valueBy fun a =>
        ((Assignment.ofList [(⟨'A'⟩, true), (⟨'B'⟩, true)]).get? a).getD true) = true := by
  obtain ⟨-, houtcome, -, hconstant, -, hdefault⟩ := evaluation_sees_free_atoms guarded
  have hw : guarded.WellFormed := by decide
  have hleast : guarded.IsLeastUnassigned (.ofList [(⟨'A'⟩, true), (.verum, false)]) ⟨'B'⟩ :=
    unassigned?_eq_some_iff.1 rfl
  have htrue : guarded.evaluate (.ofList [(⟨'A'⟩, true), (⟨'B'⟩, true)]) = .ok true := rfl
  obtain ⟨-, hmissing, -, -⟩ := houtcome hw (.ofList [(⟨'A'⟩, true), (.verum, false)])
  obtain ⟨-, -, -, hholds⟩ := houtcome hw (.ofList [(⟨'A'⟩, true), (⟨'B'⟩, true)])
  exact ⟨hw, (hmissing _).2 hleast, ((hconstant _ _ (.inl rfl)).1 false).trans htrue,
    (hholds true htrue).1 rfl, hdefault _ _ htrue fun _ => true⟩

end Sentential.Formula
