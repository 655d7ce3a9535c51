import Sentential.Formula.Basic

/-!
# The printed form of a formula

Negation is a prefix `~`; every connective stands between its operands
inside parentheses, with a blank on either side. Nothing is left to
precedence, so distinct well-formed formulas print differently.
-/

namespace Sentential.Formula

/-- The characters of the printed form, in front of what follows it. -/
def charsOnto : Formula → List Char → List Char
  | atom a, tail => a.symbol :: tail
  | not f, tail => '~' :: f.charsOnto tail
  | binary c l r, tail =>
    '(' :: l.charsOnto (' ' :: (c.chars ++ ' ' :: r.charsOnto (')' :: tail)))

/-- The characters of the printed form. -/
def chars (f : Formula) : List Char := f.charsOnto []

def text (f : Formula) : String := String.ofList f.chars

theorem charsOnto_append (f : Formula) (t u : List Char) :
    f.charsOnto (t ++ u) = f.charsOnto t ++ u := by
  induction f generalizing t with
  | atom a => rfl
  | not f ih => exact congrArg ('~' :: ·) (ih t)
  | binary c l r ihl ihr =>
    have hr : r.charsOnto (')' :: (t ++ u)) = r.charsOnto (')' :: t) ++ u := ihr (')' :: t)
    have hl := ihl (' ' :: (c.chars ++ ' ' :: r.charsOnto (')' :: t)))
    simp only [charsOnto, hr, List.cons_append, ← hl, List.append_assoc]

theorem charsOnto_eq (f : Formula) (tail : List Char) : f.charsOnto tail = f.chars ++ tail :=
  charsOnto_append f [] tail

theorem chars_atom (a : Atom) : (atom a).chars = [a.symbol] := rfl

theorem chars_not (f : Formula) : (not f).chars = '~' :: f.chars := rfl

theorem chars_binary (c : Connective) (l r : Formula) :
    (binary c l r).chars =
      '(' :: (l.chars ++ ' ' :: (c.chars ++ ' ' :: (r.chars ++ [')']))) := by
  rw [← charsOnto_eq r, ← charsOnto_eq l]
  rfl

end Sentential.Formula
