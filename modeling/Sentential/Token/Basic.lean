import Sentential.Atom.Basic
import Sentential.Connective

/-!
# Tokens
-/

namespace Sentential

inductive Token where
  | atom (a : Atom)
  | not
  | connective (c : Connective)
  /-- An opening parenthesis. -/
  | opening
  /-- A closing parenthesis. -/
  | closing
deriving DecidableEq

namespace Token

/-- The characters of a token. -/
def chars : Token → List Char
  | atom a => [a.symbol]
  | not => ['~']
  | connective c => c.chars
  | opening => ['(']
  | closing => [')']

def text (t : Token) : String := String.ofList t.chars

def isAtom : Token → Bool
  | atom _ => true
  | not | connective _ | opening | closing => false

end Token

end Sentential
