import Sentential.Assignment.Basic
import Sentential.Formula.Error
import Sentential.Formula.Basic

/-!
# Evaluation

The value of a formula under an assignment. The constants keep their
meaning whatever the assignment has for them, and every free atom needs an
entry; the least one without is reported.
-/

namespace Sentential

/-- The truth value of an atom, false where the assignment has none. -/
def Atom.value (m : Assignment) (a : Atom) : Bool :=
  if a = verum then true
  else if a = falsum then false
  else (m.get? a).getD false

namespace Formula

/-- The truth value of a formula, by the truth functions of its connectives. -/
def value (m : Assignment) : Formula → Bool
  | atom a => a.value m
  | not f => !f.value m
  | binary c l r => c.apply (l.value m) (r.value m)

/-- The least free atom without an entry. -/
def unassigned? (f : Formula) (m : Assignment) : Option Atom :=
  f.atoms.toList.find? (· ∉ m)

/-- The value of a formula, if it is well-formed and its free atoms have
entries. -/
def evaluate (f : Formula) (m : Assignment) : Except FormulaError Bool :=
  if f.WellFormed then
    match f.unassigned? m with
    | some a => .error (.unassigned a)
    | none => .ok (f.value m)
  else
    .error .malformed

end Formula

end Sentential
