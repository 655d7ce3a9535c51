import Sentential.Assignment.Order
import Sentential.Clause
import Sentential.Models

/-!
# The workbench

Formulas are kept on a stack, beside a current assignment and a list of kept
ones. Operations take their operands from the top of the stack, and an
operation that fails leaves the workbench as it was.
-/

namespace Sentential

inductive WorkbenchError where
  /-- There are too few formulas on the stack, or no kept assignment. -/
  | underflow
  | noSuchModel
  | formula (e : FormulaError)
deriving DecidableEq

structure Workbench where
  /-- The formulas, the top first. -/
  stack : List Formula := []
  current : Assignment := ∅
  /-- The assignments that were kept, in the order they are listed in. -/
  kept : List Assignment := []
deriving DecidableEq

namespace Workbench

def push (w : Workbench) (f : Formula) : Workbench :=
  { w with stack := f :: w.stack }

def top (w : Workbench) : Except WorkbenchError Formula :=
  match w.stack with
  | f :: _ => .ok f
  | [] => .error .underflow

def negate (w : Workbench) : Except WorkbenchError Workbench :=
  match w.stack with
  | f :: rest => .ok { w with stack := .not f :: rest }
  | [] => .error .underflow

/-- Join the two topmost formulas, of which the top is the right operand. -/
def combine (w : Workbench) (c : Connective) : Except WorkbenchError Workbench :=
  match w.stack with
  | r :: l :: rest => .ok { w with stack := .binary c l r :: rest }
  | _ => .error .underflow

def duplicate (w : Workbench) : Except WorkbenchError Workbench :=
  match w.stack with
  | f :: rest => .ok { w with stack := f :: f :: rest }
  | [] => .error .underflow

def swap (w : Workbench) : Except WorkbenchError Workbench :=
  match w.stack with
  | f :: g :: rest => .ok { w with stack := g :: f :: rest }
  | _ => .error .underflow

def drop (w : Workbench) : Except WorkbenchError Workbench :=
  match w.stack with
  | _ :: rest => .ok { w with stack := rest }
  | [] => .error .underflow

/-- Whether the two topmost formulas are the same. -/
def sameTops (w : Workbench) : Except WorkbenchError Bool :=
  match w.stack with
  | f :: g :: _ => .ok (decide (f = g))
  | _ => .error .underflow

/-- Ask something about the top. -/
def inspect {α : Type} (w : Workbench) (ask : Formula → Except FormulaError α) :
    Except WorkbenchError α :=
  match w.stack with
  | f :: _ => (ask f).mapError .formula
  | [] => .error .underflow

/-- Put what becomes of the top in its place. -/
def replaceTop (w : Workbench) (become : Formula → Except FormulaError Formula) :
    Except WorkbenchError Workbench :=
  (w.inspect become).map fun f => { w with stack := f :: w.stack.tail }

/-- Put the clauses of the top in its place, the last of them on top, and
count them. -/
def split (w : Workbench) : Except WorkbenchError (Workbench × Nat) :=
  (w.inspect Formula.clauses).map fun cs =>
    ({ w with stack := cs.reverse ++ w.stack.tail }, cs.length)

def assign (w : Workbench) (a : Atom) (v : Bool) : Workbench :=
  { w with current := w.current.insert a v }

def unassign (w : Workbench) (a : Atom) : Workbench :=
  { w with current := w.current.erase a }

def keep (w : Workbench) : Workbench :=
  { w with kept := w.kept ++ [w.current] }

def sortKept (w : Workbench) : Workbench :=
  { w with kept := Assignment.sort w.kept }

/-- How the current assignment compares with the one listed last. -/
def compareKept (w : Workbench) : Except WorkbenchError Ordering :=
  match w.kept.getLast? with
  | some m => .ok (compare w.current m)
  | none => .error .underflow

/-- Make the model of the top at the index the current assignment. -/
def loadModel (w : Workbench) (index : Nat) : Except WorkbenchError Workbench := do
  let models ← w.inspect Formula.models
  match models[index]? with
  | some m => return { w with current := m }
  | none => throw .noSuchModel

end Workbench

end Sentential
