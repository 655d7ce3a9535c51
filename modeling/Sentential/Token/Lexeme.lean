import Sentential.Text.Blank
import Sentential.Token.Basic

/-!
# Lexemes

A text falls into lexemes: an arrow is one lexeme, any other character is
one by itself, and blanks are dropped once the arrows are found, so a blank
inside an arrow breaks it. The double arrow is looked for before the single
one, which its last two characters would spell.
-/

namespace Sentential

inductive Lexeme where
  | char (c : Char)
  | sign (c : Connective)
deriving DecidableEq

namespace Lexeme

/-- Join every `<->`, from the left. -/
def joinDoubleArrows : List Lexeme → List Lexeme
  | char '<' :: char '-' :: char '>' :: rest => sign .iff :: joinDoubleArrows rest
  | x :: rest => x :: joinDoubleArrows rest
  | [] => []

/-- Join every `->`, from the left. -/
def joinArrows : List Lexeme → List Lexeme
  | char '-' :: char '>' :: rest => sign .imply :: joinArrows rest
  | x :: rest => x :: joinArrows rest
  | [] => []

def isBlank : Lexeme → Bool
  | char c => Text.isBlank c
  | sign _ => false

/-- The lexemes of a text. -/
def ofChars (cs : List Char) : List Lexeme :=
  (joinArrows (joinDoubleArrows (cs.map char))).filter (!isBlank ·)

/-- The token that a lexeme is. -/
def token? : Lexeme → Option Token
  | char '(' => some .opening
  | char ')' => some .closing
  | char '~' => some .not
  | char '&' => some (.connective .and)
  | char '|' => some (.connective .or)
  | char c => if c.isUpper then some (.atom ⟨c⟩) else none
  | sign c => some (.connective c)

end Lexeme

end Sentential
