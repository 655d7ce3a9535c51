import Sentential.Formula.Error
import Sentential.Formula.Shape

/-!
# Negation normal form

Negations are pushed down to the atoms by De Morgan's laws and cancel in
pairs, the conditional and the biconditional give way to disjunction and
conjunction, and a negated constant becomes the other constant. The sign
says whether the formula or its negation is wanted, so no negation is ever
built above a connective.
-/

namespace Sentential

/-- The negation of an atom: a constant turns into the other one. -/
def Atom.negation (a : Atom) : Formula :=
  if a = verum then .atom falsum
  else if a = falsum then .atom verum
  else .not (.atom a)

namespace Formula

/-- The negation normal form of `f` if `sign` is true, of its negation
otherwise. -/
def pushNegation (sign : Bool) : Formula → Formula
  | atom a => if sign then atom a else a.negation
  | not f => f.pushNegation (!sign)
  | binary .and l r =>
    binary (if sign then .and else .or) (l.pushNegation sign) (r.pushNegation sign)
  | binary .or l r =>
    binary (if sign then .or else .and) (l.pushNegation sign) (r.pushNegation sign)
  | binary .imply l r =>
    binary (if sign then .or else .and) (l.pushNegation (!sign)) (r.pushNegation sign)
  | binary .iff l r =>
    binary (if sign then .and else .or)
      (binary (if sign then .or else .and) (l.pushNegation (!sign)) (r.pushNegation sign))
      (binary (if sign then .or else .and) (r.pushNegation (!sign)) (l.pushNegation sign))

/-- The negation normal form of a well-formed formula. -/
def negationNormal (f : Formula) : Except FormulaError Formula :=
  if f.WellFormed then .ok (f.pushNegation true) else .error .malformed

end Formula

end Sentential
