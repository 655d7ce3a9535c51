import Sentential.Clause
import Sentential.NormalForm.Conjunctive
import Sentential.NormalForm.Negation

/-!
# Validity

A formula in conjunctive normal form holds under every assignment exactly if
each of its clauses does. A formula that has this form is inspected as it
stands, any other after conversion.
-/

namespace Sentential.Formula

/-- The conjunctive normal form of a well-formed formula. -/
def normalize (f : Formula) : Except FormulaError Formula := do
  (← f.negationNormal).conjunctiveNormal

/-- Whether every clause in the list is tautological; a clause that is not
ends the inspection. -/
def allTautological : List Formula → Except FormulaError Bool
  | [] => .ok true
  | c :: rest => do
    if ← c.isTautologicalClause then allTautological rest else return false

/-- Whether a well-formed formula holds under every assignment. -/
def isTautology (f : Formula) : Except FormulaError Bool :=
  if f.WellFormed then do
    let g ← if f.IsCnf then .ok f else f.normalize
    allTautological (← g.clauses)
  else
    .error .malformed

end Sentential.Formula
