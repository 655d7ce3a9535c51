import Sentential.Formula.Error
import Sentential.Formula.Shape

/-!
# Conjunctive normal form

Disjunction is distributed over conjunction. Where both sides of a
disjunction are conjunctions the left one is split first. Where only the
right one is, its parts come to stand on the left: `A | (B & C)` becomes
`(B | A) & (C | A)`.
-/

namespace Sentential.Formula

/-- The disjunction of two formulas in conjunctive normal form, itself in
conjunctive normal form. -/
def disjoin : Formula → Formula → Formula
  | binary .and a b, other => binary .and (disjoin a other) (disjoin b other)
  | other, binary .and a b => binary .and (disjoin a other) (disjoin b other)
  | l, r => binary .or l r
termination_by l r => sizeOf l + sizeOf r

/-- The conjunctive normal form of a formula in negation normal form. -/
def distribute : Formula → Formula
  | binary .and l r => binary .and l.distribute r.distribute
  | binary .or l r => disjoin l.distribute r.distribute
  | f => f

/-- The conjunctive normal form, of formulas in negation normal form only. -/
def conjunctiveNormal (f : Formula) : Except FormulaError Formula :=
  if f.IsNnf then .ok f.distribute else .error .notNnf

end Sentential.Formula
