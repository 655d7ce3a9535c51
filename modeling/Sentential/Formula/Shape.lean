import Sentential.Formula.Basic

/-!
# Shapes of formulas

Literals, negation normal form, clauses and conjunctive normal form, from
the narrowest to the widest as far as well-formed formulas go: a literal is a
clause, a clause is in conjunctive normal form, and that is in negation
normal form. All but the first ask for well-formedness too.
-/

namespace Sentential.Formula

def IsAtom : Formula → Prop
  | atom _ => True
  | not _ => False
  | binary _ _ _ => False

instance decidableIsAtom : DecidablePred IsAtom
  | atom _ => isTrue trivial
  | not _ => isFalse id
  | binary _ _ _ => isFalse id

/-- An atom or the negation of one, whatever its symbol. -/
def IsLiteral : Formula → Prop
  | atom _ => True
  | not f => f.IsAtom
  | binary _ _ _ => False

instance decidableIsLiteral : DecidablePred IsLiteral
  | atom _ => isTrue trivial
  | not f => decidableIsAtom f
  | binary _ _ _ => isFalse id

/-- Negation normal form: of the connectives only conjunction and
disjunction, and negation directly above atoms only. -/
def IsNnf : Formula → Prop
  | atom a => a.IsLetter
  | not f => f.IsAtom ∧ f.WellFormed
  | binary c l r => (c = .and ∨ c = .or) ∧ l.IsNnf ∧ r.IsNnf

instance decidableIsNnf : DecidablePred IsNnf
  | atom a => inferInstanceAs (Decidable a.IsLetter)
  | not f => inferInstanceAs (Decidable (f.IsAtom ∧ f.WellFormed))
  | binary c l r =>
    have := decidableIsNnf l
    have := decidableIsNnf r
    inferInstanceAs (Decidable ((c = .and ∨ c = .or) ∧ l.IsNnf ∧ r.IsNnf))

/-- A disjunction of literals; a literal is a clause of one. -/
def IsClause : Formula → Prop
  | atom a => a.IsLetter
  | not f => f.IsAtom ∧ f.WellFormed
  | binary c l r => c = .or ∧ l.IsClause ∧ r.IsClause

instance decidableIsClause : DecidablePred IsClause
  | atom a => inferInstanceAs (Decidable a.IsLetter)
  | not f => inferInstanceAs (Decidable (f.IsAtom ∧ f.WellFormed))
  | binary c l r =>
    have := decidableIsClause l
    have := decidableIsClause r
    inferInstanceAs (Decidable (c = .or ∧ l.IsClause ∧ r.IsClause))

/-- Conjunctive normal form: a conjunction of clauses. -/
def IsCnf : Formula → Prop
  | atom a => (atom a).IsClause
  | not f => (not f).IsClause
  | binary .and l r => l.IsCnf ∧ r.IsCnf
  | binary .or l r => (binary .or l r).IsClause
  | binary .imply _ _ => False
  | binary .iff _ _ => False

instance decidableIsCnf : DecidablePred IsCnf
  | atom a => decidableIsClause (atom a)
  | not f => decidableIsClause (not f)
  | binary .and l r =>
    have := decidableIsCnf l
    have := decidableIsCnf r
    inferInstanceAs (Decidable (l.IsCnf ∧ r.IsCnf))
  | binary .or l r => decidableIsClause (binary .or l r)
  | binary .imply _ _ => isFalse id
  | binary .iff _ _ => isFalse id

end Sentential.Formula
