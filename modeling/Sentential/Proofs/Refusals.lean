import Sentential.Proofs.Agreement

/-!
# An operation refuses for its own reason

Nine operations ask something of the formula they are given, and each has one
error for the formulas that are not like that. Most of them test what they ask
and are done. Three of them go on to call others, which ask for more: the
inspection for validity hands the formula to both rewritings, lists the clauses
of what comes back and looks into each, and looking into a clause takes both of
its literal sets. Every one of these calls has an error of its own and could
end the inspection with it, about a formula that the caller never saw.

None does. What the entry asks for implies what every later stage asks for: the
links between the shapes are in `Shape.lean`, and each rewriting lands in the
shape that the next stage wants. So an operation fails exactly if its argument
is not what it asks for, and then with its own error.
-/

namespace Sentential.Formula

/-- The operation returns on the formulas that are as asked, and on every other
formula it fails with the one error. -/
structure Guards {α : Type} (asked : Formula → Prop) (e : FormulaError)
    (op : Formula → Except FormulaError α) : Prop where
  returns : ∀ f, asked f → ∃ a, op f = .ok a
  eq_error_iff : ∀ f e', op f = .error e' ↔ ¬ asked f ∧ e' = e

variable {α : Type} {asked : Formula → Prop} {e : FormulaError}
  {op : Formula → Except FormulaError α}

theorem guards_of_returns (returns : ∀ f, asked f → ∃ a, op f = .ok a)
    (refuses : ∀ f, ¬ asked f → op f = .error e) : Guards asked e op := by
  refine ⟨returns, fun f e' => ⟨fun h => ?_, fun h => ?_⟩⟩
  · by_cases hf : asked f
    · obtain ⟨a, ha⟩ := returns f hf
      rw [ha] at h
      cases h
    · rw [refuses f hf] at h
      cases h
      exact ⟨hf, rfl⟩
  · rw [h.2]
    exact refuses f h.1

/-! ## The operations -/

theorem guards_negationNormal : Guards WellFormed .malformed negationNormal :=
  guards_of_returns (fun _ h => ⟨_, negationNormal_eq h⟩) fun _ h => if_neg h

theorem guards_conjunctiveNormal : Guards IsNnf .notNnf conjunctiveNormal :=
  guards_of_returns (fun _ h => ⟨_, conjunctiveNormal_eq h⟩) fun _ h => if_neg h

theorem guards_positiveLiterals : Guards IsNnf .notNnf positiveLiterals :=
  guards_of_returns (fun f h => ⟨f.positiveSet, if_pos h⟩) fun _ h => if_neg h

theorem guards_negativeLiterals : Guards IsNnf .notNnf negativeLiterals :=
  guards_of_returns (fun f h => ⟨f.negativeSet, if_pos h⟩) fun _ h => if_neg h

theorem guards_clauses : Guards IsCnf .notCnf clauses :=
  guards_of_returns (fun _ h => ⟨_, clauses_eq h⟩) fun _ h => if_neg h

theorem guards_isTautologicalClause : Guards IsClause .notClause isTautologicalClause :=
  guards_of_returns (fun _ h => ⟨_, isTautologicalClause_eq h⟩) fun _ h => if_neg h

theorem guards_models : Guards WellFormed .malformed models :=
  guards_of_returns (fun _ h => ⟨_, models_eq h⟩) fun _ h => if_neg h

theorem guards_isContradiction : Guards WellFormed .malformed isContradiction := by
  refine guards_of_returns (fun _ h => ⟨_, isContradiction_eq h⟩) fun f h => ?_
  have hmodels : f.models = .error .malformed := if_neg h
  rw [isContradiction, hmodels]
  rfl

theorem guards_isTautology : Guards WellFormed .malformed isTautology :=
  guards_of_returns (fun _ h => (decidesValidity_isTautology h).returns) fun _ h => if_neg h

/-! ## Every stage of the inspection -/

/-- No stage of the inspection of a formula by its clauses fails: the clauses are
listed, and of each of them, the ones behind a clause that ends the inspection
included, both literal sets are formed and the verdict is found. -/
def Inspectable (g : Formula) : Prop :=
  ∃ cs, g.clauses = .ok cs ∧ ∀ c ∈ cs, (∃ s, c.positiveLiterals = .ok s) ∧
    (∃ s, c.negativeLiterals = .ok s) ∧ ∃ b, c.isTautologicalClause = .ok b

theorem IsCnf.inspectable {g : Formula} (h : g.IsCnf) : g.Inspectable := by
  refine ⟨g.spine, clauses_eq h, fun c hc => ?_⟩
  have hclause : c.IsClause := isClause_of_mem_spine h hc
  exact ⟨guards_positiveLiterals.returns c hclause.isNnf,
    guards_negativeLiterals.returns c hclause.isNnf,
    guards_isTautologicalClause.returns c hclause⟩

/-- Each operation fails exactly if its argument is not what it asks for, and
then with its own error: well-formedness, negation normal form, conjunctive
normal form, a clause. Whatever else it calls returns, at every stage of the
inspection for validity, whether the formula is converted first or inspected as
it stands, and inside the inspection of a clause. -/
theorem refusals_are_own :
    (Guards WellFormed .malformed negationNormal ∧ Guards WellFormed .malformed isTautology ∧
      Guards WellFormed .malformed isContradiction ∧ Guards WellFormed .malformed models) ∧
    (Guards IsNnf .notNnf conjunctiveNormal ∧ Guards IsNnf .notNnf positiveLiterals ∧
      Guards IsNnf .notNnf negativeLiterals) ∧
    Guards IsCnf .notCnf clauses ∧ Guards IsClause .notClause isTautologicalClause ∧
    (∀ f : Formula, f.WellFormed → ∃ n c, f.negationNormal = .ok n ∧
      n.conjunctiveNormal = .ok c ∧ c.Inspectable ∧ (f.IsCnf → f.Inspectable)) ∧
    ∀ c : Formula, c.IsClause →
      (∃ s, c.positiveLiterals = .ok s) ∧ ∃ s, c.negativeLiterals = .ok s := by
  refine ⟨⟨guards_negationNormal, guards_isTautology, guards_isContradiction, guards_models⟩,
    ⟨guards_conjunctiveNormal, guards_positiveLiterals, guards_negativeLiterals⟩,
    guards_clauses, guards_isTautologicalClause, fun f hf => ?_, fun c hc => ?_⟩
  · have hn : (f.pushNegation true).IsNnf := isNnf_pushNegation hf true
    exact ⟨_, _, negationNormal_eq hf, conjunctiveNormal_eq hn, (isCnf_distribute hn).inspectable,
      IsCnf.inspectable⟩
  · exact ⟨guards_positiveLiterals.returns c hc.isNnf, guards_negativeLiterals.returns c hc.isNnf⟩

/-- `A | ~a`, which has the shape of a clause and a small letter in it, beside
`A <-> B`, which is well-formed and none of the rest, and the clause `A | ~B`. -/
theorem refusals_are_own_smallLetter :
    (binary .or (atom ⟨'A'⟩) (not (atom ⟨'a'⟩))).isTautology = .error .malformed ∧
      (binary .or (atom ⟨'A'⟩) (not (atom ⟨'a'⟩))).conjunctiveNormal = .error .notNnf ∧
      (binary .or (atom ⟨'A'⟩) (not (atom ⟨'a'⟩))).clauses = .error .notCnf ∧
      (binary .or (atom ⟨'A'⟩) (not (atom ⟨'a'⟩))).isTautologicalClause = .error .notClause ∧
      (binary .iff (atom ⟨'A'⟩) (atom ⟨'B'⟩)).conjunctiveNormal = .error .notNnf ∧
      (∃ b, (binary .iff (atom ⟨'A'⟩) (atom ⟨'B'⟩)).isTautology = .ok b) ∧
      (∃ n c, (binary .iff (atom ⟨'A'⟩) (atom ⟨'B'⟩)).negationNormal = .ok n ∧
        n.conjunctiveNormal = .ok c ∧ c.Inspectable) ∧
      (binary .or (atom ⟨'A'⟩) (not (atom ⟨'B'⟩))).Inspectable ∧
      ∃ s, (binary .or (atom ⟨'A'⟩) (not (atom ⟨'B'⟩))).positiveLiterals = .ok s := by
  obtain ⟨⟨-, hvalid, -, -⟩, ⟨hnormal, -, -⟩, hclauses, hclause, hstages, hsets⟩ :=
    refusals_are_own
  have hw : (binary .iff (atom ⟨'A'⟩) (atom ⟨'B'⟩)).WellFormed := by decide
  have hor : (binary .or (atom ⟨'A'⟩) (not (atom ⟨'B'⟩))).WellFormed := by decide
  obtain ⟨n, c, hn, hc, hinspect, -⟩ := hstages _ hw
  obtain ⟨-, -, -, -, -, hstands⟩ := hstages _ hor
  exact ⟨(hvalid.eq_error_iff _ _).2 ⟨by decide, rfl⟩,
    (hnormal.eq_error_iff _ _).2 ⟨by decide, rfl⟩,
    (hclauses.eq_error_iff _ _).2 ⟨by decide, rfl⟩, (hclause.eq_error_iff _ _).2 ⟨by decide, rfl⟩,
    (hnormal.eq_error_iff _ _).2 ⟨by decide, rfl⟩, hvalid.returns _ hw, ⟨n, c, hn, hc, hinspect⟩,
    hstands (by decide), (hsets _ (by decide)).1⟩

end Sentential.Formula
