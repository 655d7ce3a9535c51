import Sentential.Evaluation

/-!
# Models

The models of a formula are the assignments to exactly its free atoms under
which it is true. They are searched for by binding one atom after the other,
first to false and then to true, in a single working assignment that is
undone on the way back; so they are found in ascending order.
-/

namespace Sentential.Formula

/-- The models of `f` that bind the given atoms in addition to what the
working assignment binds, and the working assignment afterwards. -/
def search (f : Formula) : List Atom → Assignment → List Assignment × Assignment
  | [], m => (if f.value m then [m] else [], m)
  | a :: rest, m =>
    let (lower, m) := f.search rest (m.insert a false)
    let (upper, m) := f.search rest (m.insert a true)
    (lower ++ upper, m.erase a)

/-- The models of a well-formed formula in ascending order. -/
def models (f : Formula) : Except FormulaError (List Assignment) :=
  if f.WellFormed then .ok (f.search f.atoms.toList ∅).1 else .error .malformed

/-- Whether a well-formed formula has no model. -/
def isContradiction (f : Formula) : Except FormulaError Bool :=
  f.models.map List.isEmpty

end Sentential.Formula
