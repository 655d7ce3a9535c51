import Sentential.Formula.ParseError
import Sentential.Token.Lexeme

/-!
# From text to tokens

Letters may be of either case and the text may be padded with blanks. Digits
are refused first, wherever they stand. Then every lexeme has to be a token
and no two letters may follow one another; of several faults the leftmost is
reported.
-/

namespace Sentential.Token

/-- The tokens of the lexemes from index `i` on; `afterAtom` says whether the
lexeme before is a letter. -/
def ofLexemes (i : Nat) (afterAtom : Bool) : List Lexeme → Except ParseError (List Token)
  | [] => .ok []
  | x :: rest =>
    match x.token? with
    | none => .error (.disallowedCharacter i)
    | some t =>
      if afterAtom && t.isAtom then
        .error (.atomTooLong (i - 1))
      else
        (ofLexemes (i + 1) t.isAtom rest).map (t :: ·)

/-- The tokens of a text. -/
def ofChars (cs : List Char) : Except ParseError (List Token) :=
  let trimmed := (Text.trim cs).map Char.toUpper
  if trimmed = [] then
    .error .emptyInput
  else
    match trimmed.findIdx? Char.isDigit with
    | some i => .error (.disallowedCharacter i)
    | none => ofLexemes 0 false (Lexeme.ofChars trimmed)

end Sentential.Token
