import Sentential.Token.Basic

/-!
# Why a text is not a formula

Indices count from zero. The index of a digit is that of the character in
the trimmed text; every other index is that of a token, so blanks do not
count and an arrow counts once.
-/

namespace Sentential

/-- What is still missing where the text ends. -/
inductive Expected where
  | operand
  | closingParenthesis
deriving DecidableEq

inductive ParseError where
  /-- Nothing but blanks. -/
  | emptyInput
  | disallowedCharacter (index : Nat)
  /-- Two letters in a row; the index is that of the first. -/
  | atomTooLong (index : Nat)
  /-- A token that neither ends a group nor joins two operands, right after
  an operand. -/
  | unknownOperator (token : Token)
  | unmatchedParenthesis (index : Nat)
  | missingOperand (index : Nat)
  | expectedAtEnd (what : Expected)
  /-- A closing parenthesis too many. -/
  | trailingInput
deriving DecidableEq

def Expected.text : Expected → String
  | operand => "an operand"
  | closingParenthesis => "')'"

def ParseError.message : ParseError → String
  | emptyInput => "empty input"
  | disallowedCharacter i => "character at index " ++ toString i ++ " is not allowed"
  | atomTooLong i => "atom starting at index " ++ toString i ++ " is longer than one letter"
  | unknownOperator t => "'" ++ t.text ++ "' is not a binary operator"
  | unmatchedParenthesis i => "expected ')' at index " ++ toString i
  | missingOperand i => "expected an operand at index " ++ toString i
  | expectedAtEnd e => "expected " ++ e.text ++ " at end of input"
  | trailingInput => "input was not fully consumed"

end Sentential
