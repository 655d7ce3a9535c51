import Sentential.Proofs.Distribution
import Sentential.Proofs.NegationNormal

/-!
# Normal forms cannot be told from the formula

Both rewritings keep what an evaluation reads, so the formula, its negation
normal form and its conjunctive normal form have the same evaluations: the
same truth value where every free atom has an entry, and otherwise the same
complaint about the same atom. The second half of that is the stronger one. It
says that no rewriting drops an atom, not even where the constants would have
allowed it, and none brings one in.
-/

namespace Sentential.Formula

/-- The normal forms of a well-formed formula exist, and with the formula they
have every evaluation in common, the failed ones included, the free atoms, and
the list of models. The conjunctive normal form of any formula in negation
normal form has the evaluations of that formula. -/
theorem normal_forms_indistinguishable :
    (∀ f : Formula, f.WellFormed → ∃ n c,
      f.negationNormal = .ok n ∧ n.conjunctiveNormal = .ok c ∧
      (∀ m, f.evaluate m = n.evaluate m ∧ n.evaluate m = c.evaluate m ∧
        ((∃ b, f.evaluate m = .ok b) ∨
          ∃ a ∈ f.atoms, a ∉ m ∧ f.evaluate m = .error (.unassigned a))) ∧
      (f.atoms = n.atoms ∧ n.atoms = c.atoms) ∧
      ∃ ms, f.models = .ok ms ∧ n.models = .ok ms ∧ c.models = .ok ms) ∧
    ∀ g : Formula, g.IsNnf → ∃ c,
      g.conjunctiveNormal = .ok c ∧ ∀ m, g.evaluate m = c.evaluate m := by
  constructor
  · intro f hf
    have hn : (f.pushNegation true).IsNnf := isNnf_pushNegation hf true
    have hfn := equivalent_pushNegation hf
    have hnc := equivalent_distribute hn
    refine ⟨_, _, negationNormal_eq hf, conjunctiveNormal_eq hn, ?_,
      ⟨hfn.atoms_eq, hnc.atoms_eq⟩, ?_⟩
    · intro m
      refine ⟨hfn.evaluate_eq m, hnc.evaluate_eq m, ?_⟩
      rcases evaluate_cases hf m with hok | herr
      · exact .inl ⟨_, hok⟩
      · exact .inr herr
    · have hms : f.models = .ok (f.search f.atoms.toList ∅).1 := by
        rw [models, if_pos hf]
      refine ⟨_, hms, ?_, ?_⟩
      · rw [← hfn.models_eq, hms]
      · rw [← hnc.models_eq, ← hfn.models_eq, hms]
  · intro g hg
    exact ⟨_, conjunctiveNormal_eq hg, (equivalent_distribute hg).evaluate_eq⟩

/-- `A <-> ~(B & T)` keeps its complaint about `B` in both normal forms. -/
theorem normal_forms_indistinguishable_partial : ∃ n c,
    (binary .iff (atom ⟨'A'⟩) (not (binary .and (atom ⟨'B'⟩) (atom .verum)))).negationNormal =
        .ok n ∧
      n.conjunctiveNormal = .ok c ∧
      n.evaluate (.ofList [(⟨'A'⟩, true)]) = .error (.unassigned ⟨'B'⟩) ∧
      c.evaluate (.ofList [(⟨'A'⟩, true)]) = .error (.unassigned ⟨'B'⟩) := by
  obtain ⟨n, c, hn, hc, hev, -⟩ := normal_forms_indistinguishable.1
    (binary .iff (atom ⟨'A'⟩) (not (binary .and (atom ⟨'B'⟩) (atom .verum)))) (by decide)
  obtain ⟨hfn, hnc, -⟩ := hev (.ofList [(⟨'A'⟩, true)])
  have hf : (binary .iff (atom ⟨'A'⟩) (not (binary .and (atom ⟨'B'⟩) (atom .verum)))).evaluate
      (.ofList [(⟨'A'⟩, true)]) = .error (.unassigned ⟨'B'⟩) := by rfl
  exact ⟨n, c, hn, hc, hfn.symm.trans hf, hnc.symm.trans (hfn.symm.trans hf)⟩

end Sentential.Formula
