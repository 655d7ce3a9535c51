import Sentential.Formula.Error
import Sentential.Formula.Shape

/-!
# Literals of a formula

In negation normal form a formula is built from literals, atoms with a sign,
by conjunction and disjunction alone. Its positive set holds the atoms that
some literal asserts and its negative set those that some literal denies.
The constants are read by their meaning there: `F` asserts nothing and denies
itself, and its negation asserts `T`.
-/

namespace Sentential

/-- An atom with a sign. -/
structure Literal where
  atom : Atom
  positive : Bool
deriving DecidableEq

namespace Literal

/-- What a literal adds to the positive set. -/
def asserted? : Literal → Option Atom
  | ⟨a, true⟩ => if a = .falsum then none else some a
  | ⟨a, false⟩ => if a = .falsum then some .verum else none

/-- What a literal adds to the negative set. -/
def denied? : Literal → Option Atom
  | ⟨a, true⟩ => if a = .falsum then some .falsum else none
  | ⟨a, false⟩ => if a = .falsum then none else some a

end Literal

namespace Formula

/-- The literals of a formula in negation normal form, left to right, as
often as they occur. -/
def literals : Formula → List Literal
  | atom a => [⟨a, true⟩]
  | not (atom a) => [⟨a, false⟩]
  | not (not _) => []
  | not (binary _ _ _) => []
  | binary _ l r => l.literals ++ r.literals

def positiveSet (f : Formula) : AtomSet :=
  .ofList (f.literals.filterMap Literal.asserted?)

def negativeSet (f : Formula) : AtomSet :=
  .ofList (f.literals.filterMap Literal.denied?)

/-- The positive set, of formulas in negation normal form only. -/
def positiveLiterals (f : Formula) : Except FormulaError AtomSet :=
  if f.IsNnf then .ok f.positiveSet else .error .notNnf

/-- The negative set, of formulas in negation normal form only. -/
def negativeLiterals (f : Formula) : Except FormulaError AtomSet :=
  if f.IsNnf then .ok f.negativeSet else .error .notNnf

end Formula

end Sentential
