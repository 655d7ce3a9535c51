import Sentential.Formula.Basic
import Sentential.Token.Lexer

/-!
# Reading a formula

Negation binds tightest, then conjunction, disjunction, the conditional and
the biconditional, each chained to the left. Tokens are read by climbing:
under a ceiling, an operand is read and then extended by every connective
whose level is not above the ceiling. The right operand of a connective is
read under the ceiling just below its level, so that another connective of
that level is left to the loop and the chain folds to the left. A negation takes
no connective with it, and a group takes every one.

Every step hands back what it left unread, with a bound on its length; each
step consumes a token, and that ends the recursion.
-/

namespace Sentential.Formula

/-- A token and its index. -/
abbrev Located := Token × Nat

/-- A formula that was read, and the tokens left, fewer than `bound`. -/
structure Reading (bound : Nat) where
  formula : Formula
  rest : List Located
  within : rest.length < bound

mutual

/-- Read an atom, a negation or a group. -/
def operand (ts : List Located) : Except ParseError (Reading ts.length) :=
  match ts with
  | [] => .error (.expectedAtEnd .operand)
  | (.atom a, _) :: rest => .ok ⟨.atom a, rest, Nat.lt_succ_self _⟩
  | (.not, _) :: rest =>
    match climb Connective.negationLevel rest with
    | .error e => .error e
    | .ok r => .ok ⟨.not r.formula, r.rest, Nat.lt_succ_of_lt r.within⟩
  | (.opening, _) :: rest =>
    match climb Connective.maxLevel rest with
    | .error e => .error e
    | .ok ⟨_, [], _⟩ => .error (.expectedAtEnd .closingParenthesis)
    | .ok ⟨f, (.closing, _) :: after, h⟩ =>
      .ok ⟨f, after, Nat.lt_succ_of_lt (Nat.lt_of_succ_lt h)⟩
    | .ok ⟨_, (_, i) :: _, _⟩ => .error (.unmatchedParenthesis i)
  | (.closing, i) :: _ => .error (.missingOperand i)
  | (.connective _, i) :: _ => .error (.missingOperand i)
termination_by (ts.length, 0)

/-- Read an operand and extend it under the ceiling. -/
def climb (ceiling : Nat) (ts : List Located) : Except ParseError (Reading ts.length) :=
  match operand ts with
  | .error e => .error e
  | .ok r =>
    match extend ceiling r.formula r.rest with
    | .error e => .error e
    | .ok s => .ok ⟨s.formula, s.rest, Nat.lt_of_lt_of_le s.within r.within⟩
termination_by (ts.length, 1)
decreasing_by
  · exact Prod.Lex.right _ Nat.zero_lt_one
  · exact Prod.Lex.left _ _ r.within

/-- Extend the formula on the left by the connectives that follow. -/
def extend (ceiling : Nat) (left : Formula) (ts : List Located) :
    Except ParseError (Reading (ts.length + 1)) :=
  match ts with
  | [] => .ok ⟨left, [], Nat.lt_succ_self _⟩
  | (.closing, i) :: rest => .ok ⟨left, (.closing, i) :: rest, Nat.lt_succ_self _⟩
  | (.connective c, i) :: rest =>
    if ceiling < c.level then
      .ok ⟨left, (.connective c, i) :: rest, Nat.lt_succ_self _⟩
    else
      match climb (c.level - 1) rest with
      | .error e => .error e
      | .ok r =>
        match extend ceiling (.binary c left r.formula) r.rest with
        | .error e => .error e
        | .ok s =>
          .ok ⟨s.formula, s.rest,
            Nat.lt_trans s.within (Nat.succ_lt_succ (Nat.lt_succ_of_lt r.within))⟩
  | (t, _) :: _ => .error (.unknownOperator t)
termination_by (ts.length, 0)
decreasing_by
  · exact Prod.Lex.left _ _ (Nat.lt_succ_self _)
  · exact Prod.Lex.left _ _ (Nat.lt_succ_of_lt r.within)

end

/-- Read a formula that uses up the tokens. -/
def ofTokens (ts : List Token) : Except ParseError Formula :=
  match climb Connective.maxLevel ts.zipIdx with
  | .error e => .error e
  | .ok ⟨f, [], _⟩ => .ok f
  | .ok ⟨_, _ :: _, _⟩ => .error .trailingInput

/-- Read a formula. -/
def parse (text : String) : Except ParseError Formula :=
  match Token.ofChars text.toList with
  | .error e => .error e
  | .ok ts => ofTokens ts

end Sentential.Formula
