import Sentential.Report

/-!
# The command line

The arguments are `[--assign ATOM=VALUE,...] [--models] [--] [FORMULA]`, or
`-a` and `-m` for short. The formula is read from the standard input if it is
not given.
-/

namespace Sentential.Request

def withFormula (r : Request) (text : String) : Option Request :=
  if r.formula.isSome then none else some { r with formula := some text }

/-- Take one argument into the request; `next` is the argument after it. The
flag says whether that one was used up too. -/
def takeArgument (r : Request) (arg : List Char) (next : Option String) :
    Option (Request × Bool) :=
  let assigned := fun text => { r with assignment := some text }
  let assignedNext := next.map fun text => (assigned text, true)
  match arg with
  | '-' :: '-' :: option =>
    match option.splitOn '=' with
    | [name] =>
      if name = "models".toList then some ({ r with models := true }, false)
      else if name = "assign".toList then assignedNext
      else none
    | name :: value =>
      if name = "assign".toList then
        some (assigned (String.ofList (['='].intercalate value)), false)
      else none
    | [] => none
  | ['-', 'm'] => some ({ r with models := true }, false)
  | ['-', 'a'] => assignedNext
  | '-' :: 'a' :: text => some (assigned (String.ofList text), false)
  | '-' :: _ :: _ => none
  | text => (r.withFormula (String.ofList text)).map (·, false)

/-- Take the arguments into the request. After `--` the next one is the
formula, whatever it looks like. -/
def takeArguments (r : Request) : List String → Option Request
  | [] => some r
  | ["--"] => some r
  | ["--", text] => r.withFormula text
  | "--" :: _ => none
  | [arg] => (r.takeArgument arg.toList none).map (·.1)
  | arg :: next :: rest =>
    match r.takeArgument arg.toList (some next) with
    | some (r, true) => r.takeArguments rest
    | some (r, false) => r.takeArguments (next :: rest)
    | none => none

def ofArguments (args : List String) : Option Request :=
  takeArguments ⟨none, none, false⟩ args

def usage : String :=
  "usage: sentential [--assign ATOM=VALUE,...] [--models] [--] [FORMULA]"

/-- What can be read from the standard input, if it is needed. -/
def readInput (r : Request) : IO ByteArray := do
  if r.formula.isSome then
    return ByteArray.empty
  else
    (← IO.getStdin).readBinToEnd

end Sentential.Request

open Sentential

def main (args : List String) : IO UInt32 := do
  let outcome ←
    match Request.ofArguments args with
    | none => pure (.refusal Request.usage)
    | some r => r.run <$> r.readInput
  (← IO.getStdout).putStr outcome.stdout
  (← IO.getStderr).putStr outcome.stderr
  return outcome.code.toUInt32
