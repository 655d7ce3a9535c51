import Sentential.Assignment.Text
import Sentential.Formula.Parser
import Sentential.Formula.Printer
import Sentential.Models
import Sentential.Validity

/-!
# The report on a formula

A run reads a formula, from the request or else from the input, and reports
its printed form, its normal forms and whether it is a tautology or a
contradiction. If the request has an assignment the value follows, and if it
asks for models they come last. A formula or an assignment that cannot be
read ends the run before the report; an atom without a value ends it after
the lines that are already written.
-/

namespace Sentential

/-- What a run is asked for. Without a formula the input is one. -/
structure Request where
  formula : Option String
  assignment : Option String
  models : Bool
deriving DecidableEq

/-- The exit code of a run and what it writes. -/
structure Outcome where
  code : Nat
  stdout : String
  stderr : String
deriving DecidableEq

namespace Report

def truth (b : Bool) : String := if b then "true" else "false"

/-- The formula and its normal forms. -/
def forms (f : Formula) : Except FormulaError (List String) := do
  let negation ← f.negationNormal
  let conjunctive ← negation.conjunctiveNormal
  return ["formula:       " ++ f.text, "nnf:           " ++ negation.text,
    "cnf:           " ++ conjunctive.text]

/-- The parts of a report in order, each with its lines or its failure. -/
def parts (f : Formula) (assignment : Option Assignment) (models : Bool) :
    List (Except FormulaError (List String)) :=
  [forms f,
    f.isTautology.map fun b => ["tautology:     " ++ truth b],
    f.isContradiction.map fun b => ["contradiction: " ++ truth b]] ++
  assignment.toList.map (fun m => (f.evaluate m).map fun b => ["value:         " ++ truth b]) ++
  if models then [f.models.map (·.map Assignment.text)] else []

/-- The lines of the parts before the first failure, and the failure. -/
def upToFailure : List (Except FormulaError (List String)) → List String × Option FormulaError
  | [] => ([], none)
  | .error e :: _ => ([], some e)
  | .ok lines :: rest =>
    let (more, failure) := upToFailure rest
    (lines ++ more, failure)

/-- The text of some lines, each with its line end. -/
def unlines (lines : List String) : String :=
  String.join (lines.map (· ++ "\n"))

end Report

namespace Outcome

/-- A run that writes nothing but why it stopped. -/
def refusal (reason : String) : Outcome := ⟨1, "", Report.unlines [reason]⟩

/-- A run that writes a report. -/
def report (f : Formula) (assignment : Option Assignment) (models : Bool) : Outcome :=
  match Report.upToFailure (Report.parts f assignment models) with
  | (lines, none) => ⟨0, Report.unlines lines, ""⟩
  | (lines, some e) => ⟨2, Report.unlines lines, Report.unlines ["error: " ++ e.message]⟩

end Outcome

namespace Request

/-- The text of the formula, unless it is to be taken from an input that is
not text. -/
def text? (r : Request) (input : ByteArray) : Option String :=
  match r.formula with
  | some text => some text
  | none => String.fromUTF8? input

/-- Serve a request; `input` is what can be read from the standard input. -/
def run (r : Request) (input : ByteArray) : Outcome :=
  match r.text? input with
  | none => .refusal "error reading stdin: stream did not contain valid UTF-8"
  | some text =>
    match Formula.parse text with
    | .error e => .refusal ("parse error: " ++ e.message)
    | .ok f =>
      match r.assignment.map Assignment.parse with
      | some (.error e) => .refusal ("invalid assignment: " ++ e.message)
      | some (.ok m) => .report f (some m) r.models
      | none => .report f none r.models

end Request

end Sentential
