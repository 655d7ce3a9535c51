/-!
# Binary connectives

Conjunction, disjunction, the conditional and the biconditional, each with
its sign, its level and its truth function. The lower the level, the tighter
a connective binds; negation binds tighter than all of them. Only the order of
the levels counts, and there is room between them.
-/

namespace Sentential

inductive Connective where
  | and
  | or
  | imply
  | iff
deriving DecidableEq

namespace Connective

/-- The characters of the sign. -/
def chars : Connective → List Char
  | and => ['&']
  | or => ['|']
  | imply => ['-', '>']
  | iff => ['<', '-', '>']

/-- How loosely a connective binds. -/
def level : Connective → Nat
  | and => 4
  | or => 5
  | imply => 7
  | iff => 8

/-- The level of negation, below that of every connective. -/
def negationLevel : Nat := 1

/-- A level above that of every connective. -/
def maxLevel : Nat := 10

/-- The truth function. -/
def apply : Connective → Bool → Bool → Bool
  | and, x, y => x && y
  | or, x, y => x || y
  | imply, x, y => !x || y
  | iff, x, y => x == y

end Connective

end Sentential
