import Mathlib.Algebra.Group.Nat.Defs
import Mathlib.Data.List.Basic
import Mathlib.Tactic.TFAE
import Sentential.Proofs.Models
import Sentential.Proofs.Validity

/-!
# Two procedures, one verdict

Validity is decided by looking at clauses, unsatisfiability by listing models,
and neither procedure knows of the other. What they have in common is the
table of a formula: its free atoms have as many assignments as there are ways
to choose a value for each, and negation turns the column of values over. So
every assignment is a model of the formula or of its negation, and of one of
them only. All the comparisons below are between the two halves of that table:
the one verdict asks whether the second half is empty, the other whether the
first is.
-/

namespace Sentential

/-! ## The size of the table -/

namespace Assignment

theorem length_extensions (as : List Atom) (m : Assignment) :
    (extensions as m).length = 2 ^ as.length := by
  induction as generalizing m with
  | nil => rfl
  | cons a rest ih =>
      rw [extensions, List.length_append, ih, ih, List.length_cons, Nat.pow_succ, Nat.mul_two]

theorem length_table (s : AtomSet) : (table s).length = 2 ^ s.size :=
  length_extensions s.toList ∅

end Assignment

/-! ## Its two halves -/

namespace Formula

open Assignment

theorem atoms_not (f : Formula) : (not f).atoms = f.atoms := rfl

theorem wellFormed_not {f : Formula} (h : f.WellFormed) : (not f).WellFormed := h

/-- The models of the negation are what is left of the table. -/
theorem satisfying_not (f : Formula) :
    (not f).satisfying = (table f.atoms).filter fun m => !f.value m := rfl

theorem satisfying_not_not (f : Formula) : (not (not f)).satisfying = f.satisfying := by
  have hvalue : ∀ m, (not (not f)).value m = f.value m := fun m => Bool.not_not (f.value m)
  rw [satisfying, satisfying, atoms_not, atoms_not]
  simp only [hvalue]

theorem length_satisfying_add (f : Formula) :
    f.satisfying.length + (not f).satisfying.length = 2 ^ f.atoms.size := by
  rw [← length_table, satisfying_not, satisfying]
  exact (List.length_eq_length_filter_add (f.value ·)).symm

theorem nodup_satisfying (f : Formula) : f.satisfying.Nodup := by
  refine (pairwise_satisfying f).imp ?_
  intro m n hlt heq
  have hself : compare n n = .eq := Std.ReflCmp.compare_self
  rw [heq, hself] at hlt
  cases hlt

theorem disjoint_satisfying (f : Formula) : f.satisfying.Disjoint (not f).satisfying := by
  intro m hm hnot
  have htrue : f.value m = true := (mem_satisfying.1 hm).2
  have hfalse : (!f.value m) = true := (mem_satisfying.1 hnot).2
  rw [htrue] at hfalse
  cases hfalse

/-! ## What the verdicts say about the table -/

theorem isContradiction_eq {f : Formula} (h : f.WellFormed) :
    f.isContradiction = .ok f.satisfying.isEmpty := by
  rw [isContradiction, models_eq h]
  rfl

theorem isContradiction_eq_ok_true_iff {f : Formula} (h : f.WellFormed) :
    f.isContradiction = .ok true ↔ f.satisfying = [] := by
  rw [isContradiction_eq h, Except.ok.injEq, List.isEmpty_iff]

theorem isTautology_eq_ok_true_iff {f : Formula} (h : f.WellFormed) :
    f.isTautology = .ok true ↔ (not f).satisfying = [] := by
  have hempty : (not f).satisfying = [] ↔ ∀ m ∈ table f.atoms, f.value m = true := by
    rw [satisfying_not, List.filter_eq_nil_iff]
    simp
  rw [(decidesValidity_isTautology h).true_iff, hempty]
  refine ⟨fun hvalid m hm => ?_, fun htable m hm => ?_⟩
  · have hcovers : m.Covers f := covers_of_keys_eq (mem_table.1 hm)
    have heval := hvalid m hcovers
    rw [evaluate_of_covers h hcovers] at heval
    exact Except.ok.inj heval
  · have htrue : f.value (m.restrict f.atoms) = true :=
      htable _ (mem_table.2 hm.keys_restrict)
    rw [evaluate_of_covers h hm, (restrict_mem_satisfying hm).1 (mem_satisfying.2
      ⟨hm.keys_restrict, htrue⟩)]

theorem length_satisfying_eq_iff (f : Formula) :
    f.satisfying.length = 2 ^ f.atoms.size ↔ (not f).satisfying = [] := by
  rw [← length_satisfying_add f, ← List.length_eq_zero_iff]
  omega

/-- The inspection of clauses and the search for models agree about every
well-formed formula and its negation: both return, a formula is found valid
exactly if all the assignments to its free atoms are models and exactly if its
negation is found contradictory, it is found contradictory exactly if it has no
model and exactly if its negation is found valid, and the models of the two
share out the assignments between them. -/
theorem deciders_agree {f : Formula} (h : f.WellFormed) :
    ∃ ms ns, f.models = .ok ms ∧ (not f).models = .ok ns ∧ ms.Nodup ∧ ns.Nodup ∧
      (∃ b, f.isTautology = .ok b) ∧ (∃ b, f.isContradiction = .ok b) ∧
      [f.isTautology = .ok true, ms.length = 2 ^ f.atoms.size,
        (not f).isContradiction = .ok true].TFAE ∧
      [f.isContradiction = .ok true, ms = [], (not f).isTautology = .ok true].TFAE ∧
      ms.Disjoint ns ∧ ms.length + ns.length = 2 ^ f.atoms.size ∧
      ¬ (f.isTautology = .ok true ∧ f.isContradiction = .ok true) := by
  have hnot : (not f).WellFormed := wellFormed_not h
  refine ⟨f.satisfying, (not f).satisfying, models_eq h, models_eq hnot, nodup_satisfying f,
    nodup_satisfying _, (decidesValidity_isTautology h).returns, ⟨_, isContradiction_eq h⟩,
    ?_, ?_, disjoint_satisfying f, length_satisfying_add f, ?_⟩
  · rw [isTautology_eq_ok_true_iff h, length_satisfying_eq_iff,
      isContradiction_eq_ok_true_iff hnot]
    tfae_finish
  · rw [isContradiction_eq_ok_true_iff h, isTautology_eq_ok_true_iff hnot, satisfying_not_not]
    tfae_finish
  · rw [isTautology_eq_ok_true_iff h, isContradiction_eq_ok_true_iff h]
    rintro ⟨hvalid, hcontradictory⟩
    have hsum := length_satisfying_add f
    rw [hvalid, hcontradictory] at hsum
    exact Nat.ne_of_lt (Nat.two_pow_pos f.atoms.size) hsum

/-- `(A <-> B) & (A <-> ~B)`. -/
def conflict : Formula :=
  binary .and (binary .iff (atom ⟨'A'⟩) (atom ⟨'B'⟩))
    (binary .iff (atom ⟨'A'⟩) (not (atom ⟨'B'⟩)))

theorem deciders_agree_conflict :
    conflict.WellFormed ∧ conflict.isContradiction = .ok true ∧
      (not conflict).isTautology = .ok true ∧
      ∃ ns, (not conflict).models = .ok ns ∧ ns.length = 4 := by
  have hw : conflict.WellFormed := by decide
  obtain ⟨ms, ns, hms, hns, _, _, _, _, _, hfalse, _, hsum, _⟩ := deciders_agree hw
  have hnone : conflict.models = .ok [] := rfl
  rw [hnone] at hms
  cases hms
  refine ⟨hw, (hfalse.out 0 1).2 rfl, (hfalse.out 1 2).1 rfl, ns, hns, ?_⟩
  exact (Nat.zero_add ns.length).symm.trans hsum

end Formula

end Sentential
