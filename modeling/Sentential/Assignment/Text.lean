import Sentential.Assignment.Basic
import Sentential.Text.Blank

/-!
# Assignments in text

An assignment is written as entries between commas, as in `A=1, b=false, C`.
An entry is a name, an equals sign and a truth value; the sign and the value
may be left out, and then the value is true. Blanks around names, values and
entries and the case of letters do not matter, empty entries count for
nothing, and of several entries for one atom the last counts. Of several bad
entries the leftmost is reported, and of a bad entry the name first.
-/

namespace Sentential

inductive AssignmentError where
  | name (e : InvalidName)
  /-- What stands after the equals sign, blanks before it included. -/
  | value (raw : String)
deriving DecidableEq

def AssignmentError.message : AssignmentError → String
  | name e => e.message
  | value raw => "'" ++ raw ++ "' is not a truth value"

namespace Assignment

/-- The truth value that a word in lower case spells. -/
def truthValue? : List Char → Option Bool
  | ['1'] | ['t'] | ['t', 'r', 'u', 'e'] => some true
  | ['0'] | ['f'] | ['f', 'a', 'l', 's', 'e'] => some false
  | _ => none

/-- The entries of a text: what stands between the commas, trimmed, if
anything does. -/
def splitEntries (cs : List Char) : List (List Char) :=
  ((cs.splitOn ',').map Text.trim).filter (· ≠ [])

/-- The name and the value of an entry, cut at the first equals sign. -/
def splitEntry (entry : List Char) : List Char × List Char :=
  match entry.span (· ≠ '=') with
  | (name, []) => (name, ['1'])
  | (name, _ :: value) => (name, value)

/-- Read an entry. -/
def readEntry (entry : List Char) : Except AssignmentError (Atom × Bool) :=
  let (name, value) := splitEntry entry
  match Atom.ofName (String.ofList ((Text.trim name).map Char.toUpper)) with
  | .error e => .error (.name e)
  | .ok a =>
    match truthValue? ((Text.trim value).map Char.toLower) with
    | none => .error (.value (String.ofList value))
    | some v => .ok (a, v)

/-- Read an assignment. -/
def parse (text : String) : Except AssignmentError Assignment :=
  ((splitEntries text.toList).mapM readEntry).map ofList

end Assignment

end Sentential
