import Sentential.Literal

/-!
# Clauses

A clause is true under every assignment exactly if it asserts `T` or asserts
and denies the same atom, so its two sets of literals decide it. A formula
in conjunctive normal form is the conjunction of its clauses.
-/

namespace Sentential.Formula

/-- Whether a clause holds whatever its atoms mean. -/
def isTautologicalClause (f : Formula) : Except FormulaError Bool :=
  if f.IsClause then do
    let positive ← f.positiveLiterals
    let negative ← f.negativeLiterals
    return decide (.verum ∈ positive ∨ positive.Meets negative)
  else
    .error .notClause

/-- The conjuncts of the pending formulas, left to right: a conjunction gives
way to its two sides, so that nothing waits but what stands further right. -/
def conjuncts : List Formula → List Formula
  | [] => []
  | binary .and l r :: pending => conjuncts (l :: r :: pending)
  | f :: pending => f :: conjuncts pending
termination_by pending => sizeOf pending

/-- The clauses of a formula in conjunctive normal form, left to right. -/
def clauses (f : Formula) : Except FormulaError (List Formula) :=
  if f.IsCnf then .ok (conjuncts [f]) else .error .notCnf

end Sentential.Formula
