import Sentential.NormalForm.Negation
import Sentential.Proofs.Evaluation
import Sentential.Proofs.Shape

/-!
# What pushing a negation down keeps

`pushNegation` carries a sign instead of building negations, so every fact
about it is a fact about both signs at once: the conditional and the
biconditional turn the sign over for some of their operands, and an induction
that fixed the sign would not get past them. With the sign in the statement
each case is one truth table, and the two constants are the only atoms that
need a word of their own.
-/

namespace Sentential

/-! ## At an atom -/

namespace Atom

theorem negation_eq_not {a : Atom} (h : ¬ a.IsConstant) : a.negation = .not (.atom a) := by
  rw [negation, if_neg fun hT => h (.inl hT), if_neg fun hF => h (.inr hF)]

/-- The constants have a negation of their own, and any other atom is negated. -/
theorem negation_cases (a : Atom) :
    a = verum ∨ a = falsum ∨ (¬ a.IsConstant ∧ a.negation = .not (.atom a)) := by
  by_cases h : a.IsConstant
  · exact h.elim .inl fun hF => .inr (.inl hF)
  · exact .inr (.inr ⟨h, negation_eq_not h⟩)

theorem value_negation (m : Assignment) (a : Atom) : a.negation.value m = !a.value m := by
  rcases a.negation_cases with rfl | rfl | ⟨-, h⟩
  · rfl
  · rfl
  · rw [h]
    rfl

theorem mem_atoms_negation {a b : Atom} :
    b ∈ a.negation.atoms ↔ b ∈ (Formula.atom a).atoms := by
  rcases a.negation_cases with rfl | rfl | ⟨-, h⟩
  · exact Iff.rfl
  · exact Iff.rfl
  · rw [h]
    exact Formula.mem_atoms_not

theorem isNnf_negation {a : Atom} (ha : a.IsLetter) : a.negation.IsNnf := by
  rcases a.negation_cases with rfl | rfl | ⟨-, h⟩
  · decide
  · decide
  · rw [h]
    exact ⟨trivial, ha⟩

end Atom

/-! ## At a formula -/

namespace Formula

theorem value_pushNegation (m : Assignment) (sign : Bool) (f : Formula) :
    (f.pushNegation sign).value m = (f.value m == sign) := by
  induction f generalizing sign with
  | atom a =>
      cases sign with
      | true => simp [pushNegation, value]
      | false => simp [pushNegation, value, Atom.value_negation]
  | not f ih =>
      rw [pushNegation, ih, value]
      cases f.value m <;> cases sign <;> rfl
  | binary c l r ihl ihr =>
      cases c <;> simp only [pushNegation, value, ihl, ihr] <;>
        cases sign <;> cases l.value m <;> cases r.value m <;> rfl

theorem mem_atoms_pushNegation {sign : Bool} {f : Formula} {a : Atom} :
    a ∈ (f.pushNegation sign).atoms ↔ a ∈ f.atoms := by
  induction f generalizing sign with
  | atom b =>
      cases sign with
      | true => exact Iff.rfl
      | false => exact Atom.mem_atoms_negation
  | not f ih => exact ih
  | binary c l r ihl ihr =>
      cases c with
      | and | or | imply =>
          simp only [pushNegation, mem_atoms_binary, ihl, ihr]
      | iff =>
          -- Both operands occur twice on the left.
          simp only [pushNegation, mem_atoms_binary, ihl, ihr]
          rw [or_comm (a := a ∈ r.atoms), or_self]

theorem atoms_pushNegation (sign : Bool) (f : Formula) :
    (f.pushNegation sign).atoms = f.atoms :=
  AtomSet.ext fun _ => mem_atoms_pushNegation

theorem isNnf_pushNegation {f : Formula} (h : f.WellFormed) (sign : Bool) :
    (f.pushNegation sign).IsNnf := by
  induction f generalizing sign with
  | atom a =>
      cases sign with
      | true => exact h
      | false => exact Atom.isNnf_negation h
  | not f ih => exact ih h !sign
  | binary c l r ihl ihr =>
      have hl : ∀ s, (l.pushNegation s).IsNnf := ihl h.1
      have hr : ∀ s, (r.pushNegation s).IsNnf := ihr h.2
      cases c <;> cases sign <;> simp [pushNegation, IsNnf, hl, hr]

/-- Under the sign true nothing is negated. -/
theorem equivalent_pushNegation {f : Formula} (h : f.WellFormed) :
    f.Equivalent (f.pushNegation true) where
  wellFormed_left := h
  wellFormed_right := (isNnf_pushNegation h true).wellFormed
  atoms_eq := (atoms_pushNegation true f).symm
  value_eq m := by rw [value_pushNegation, beq_true]

/-- The negation normal form of a well-formed formula exists. -/
theorem negationNormal_eq {f : Formula} (h : f.WellFormed) :
    f.negationNormal = .ok (f.pushNegation true) := by
  rw [negationNormal, if_pos h]

theorem negationNormal_eq_ok_iff {f g : Formula} :
    f.negationNormal = .ok g ↔ f.WellFormed ∧ f.pushNegation true = g := by
  by_cases h : f.WellFormed
  · rw [negationNormal_eq h, Except.ok.injEq, and_iff_right h]
  · simp [negationNormal, h]

end Formula

end Sentential
