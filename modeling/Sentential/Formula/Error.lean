import Sentential.Atom.Basic

/-!
# What an operation on a formula can object to
-/

namespace Sentential

inductive FormulaError where
  /-- An atom of the formula is not a letter. -/
  | malformed
  | notNnf
  | notCnf
  | notClause
  /-- The assignment has no entry for this free atom. -/
  | unassigned (a : Atom)
deriving DecidableEq

def FormulaError.message : FormulaError → String
  | malformed => "formula is not well-formed"
  | notNnf => "formula is not in negation normal form"
  | notCnf => "formula is not in conjunctive normal form"
  | notClause => "formula is not a clause"
  | unassigned a => "no value assigned to atom " ++ a.name

end Sentential
