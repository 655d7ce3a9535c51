import Sentential.Proofs.Clause
import Sentential.Proofs.Distribution

/-!
# Distribution crosses the clauses

A formula in conjunctive normal form is known by its clauses, and distribution
can be said of them alone: a conjunction lines up the clauses of its two sides,
a disjunction pairs each clause of the one side with each of the other. No
clause is lost or made twice on the way, and the pairs come in the order of the
left side first, although `disjoin` splits the two sides by turns. The recursion
that normalises the disjunctions of the parts once more makes the same ones
(`Termination.lean`).

Only the order inside a pair takes a second look. Splitting the right side turns
the operands round. That happens once for each clause on the left, when nothing
is left to split there, and every later split is one of the left operand. So the
pairs are turned round together, exactly if there is something to split on the
right.
-/

namespace Sentential.Formula

/-! ## The spine of a disjunction -/

theorem one_le_length_spine (f : Formula) : 1 ≤ f.spine.length := by
  fun_induction spine f with
  | case1 l r ihl ihr =>
      rw [List.length_append]
      omega
  | case2 f hf => exact Nat.le_refl 1

theorem spine_eq_singleton {f : Formula} (hf : ∀ a b, f ≠ binary .and a b) :
    f.spine = [f] := by
  rw [spine]
  exact hf

/-- The disjunctions of each formula on the left with each on the right. The
right one comes first unless it is the only one there. -/
def crossed (ls rs : List Formula) : List Formula :=
  ls.flatMap fun a => rs.map fun b =>
    if rs.length = 1 then binary .or a b else binary .or b a

theorem crossed_append (ls ls' rs : List Formula) :
    crossed (ls ++ ls') rs = crossed ls rs ++ crossed ls' rs := List.flatMap_append

/-- A single formula on the right stays there. -/
theorem crossed_singleton_right (ls : List Formula) (b : Formula) :
    crossed ls [b] = ls.map fun a => binary .or a b := by
  induction ls with
  | nil => rfl
  | cons a ls ih =>
      rw [List.map_cons, ← ih]
      rfl

/-- Several formulas on the right pass over a single one on the left. -/
theorem crossed_singleton_left (a : Formula) {rs : List Formula} (h : 2 ≤ rs.length) :
    crossed [a] rs = rs.map fun b => binary .or b a := by
  have hne : rs.length ≠ 1 := by omega
  rw [crossed, List.flatMap_cons, List.flatMap_nil, List.append_nil]
  simp only [if_neg hne]

theorem spine_disjoin (l r : Formula) : (disjoin l r).spine = crossed l.spine r.spine := by
  fun_induction disjoin l r with
  | case1 a b other iha ihb => rw [spine, spine, iha, ihb, crossed_append]
  | case2 other a b hother iha ihb =>
      -- The left side is a single clause now, and the right one has at least two.
      have hsplit : (binary .and a b).spine = a.spine ++ b.spine := rfl
      have htwo : 2 ≤ (binary .and a b).spine.length := by
        have ha := a.one_le_length_spine
        have hb := b.one_le_length_spine
        rw [hsplit, List.length_append]
        omega
      rw [spine_eq_singleton hother] at iha ihb ⊢
      rw [spine, iha, ihb, crossed_singleton_left other htwo, hsplit, ← crossed_append,
        crossed_singleton_right]
  | case3 l r hl hr =>
      rw [spine_eq_singleton hl, spine_eq_singleton hr]
      rfl

/-! ## Counting clauses -/

/-- The number of clauses that distribution makes: the sum over a conjunction,
the product over a disjunction, and one for anything else. -/
def clauseCount : Formula → Nat
  | binary .and l r => l.clauseCount + r.clauseCount
  | binary .or l r => l.clauseCount * r.clauseCount
  | _ => 1

theorem length_crossed (ls rs : List Formula) :
    (crossed ls rs).length = ls.length * rs.length := by
  induction ls with
  | nil => rw [List.length_nil, Nat.zero_mul]; rfl
  | cons a ls ih =>
      rw [crossed, List.flatMap_cons, List.length_append, List.length_map, List.length_cons,
        Nat.succ_mul, Nat.add_comm]
      exact congrArg (· + rs.length) ih

theorem length_spine_distribute (f : Formula) : f.distribute.spine.length = f.clauseCount := by
  fun_induction distribute f with
  | case1 l r ihl ihr => rw [spine, List.length_append, ihl, ihr, clauseCount]
  | case2 l r ihl ihr => rw [spine_disjoin, length_crossed, ihl, ihr, clauseCount]
  | case3 f hand hor =>
      rw [spine_eq_singleton hand, clauseCount]
      · rfl
      · exact hand
      · exact hor

/-! ## The clauses of the normal form -/

/-- The clauses of the conjunctive normal form of a formula. -/
def normalClauses (f : Formula) : Except FormulaError (List Formula) := do
  (← f.conjunctiveNormal).clauses

theorem normalClauses_eq {f : Formula} (h : f.IsNnf) :
    f.normalClauses = .ok f.distribute.spine := by
  rw [normalClauses, conjunctiveNormal_eq h]
  exact clauses_eq (isCnf_distribute h)

theorem normalClauses_and {l r : Formula} (hl : l.IsNnf) (hr : r.IsNnf) :
    (binary .and l r).normalClauses = .ok (l.distribute.spine ++ r.distribute.spine) :=
  normalClauses_eq (f := binary .and l r) ⟨.inl rfl, hl, hr⟩

theorem normalClauses_or {l r : Formula} (hl : l.IsNnf) (hr : r.IsNnf) :
    (binary .or l r).normalClauses = .ok (crossed l.distribute.spine r.distribute.spine) := by
  rw [normalClauses_eq (f := binary .or l r) ⟨.inr rfl, hl, hr⟩, distribute, spine_disjoin]

/-- The clauses of the normal form of a conjunction are those of its sides, the
left ones first. Those of a disjunction are the disjunctions of a clause of the
left side with one of the right side, each pair once, in the order of the left
side and then of the right; the clause of the left side stands first in them if
the right side has one clause, and last if it has several. So the formula tells
how many clauses there are. -/
theorem clauses_cross :
    (∀ l r : Formula, l.IsNnf → r.IsNnf → ∃ ls rs,
      l.normalClauses = .ok ls ∧ r.normalClauses = .ok rs ∧ 1 ≤ ls.length ∧ 1 ≤ rs.length ∧
      (binary .and l r).normalClauses = .ok (ls ++ rs) ∧
      (rs.length = 1 → (binary .or l r).normalClauses =
        .ok (ls.flatMap fun a => rs.map fun b => binary .or a b)) ∧
      (2 ≤ rs.length → (binary .or l r).normalClauses =
        .ok (ls.flatMap fun a => rs.map fun b => binary .or b a))) ∧
    ∀ f : Formula, f.IsNnf → ∃ cs, f.normalClauses = .ok cs ∧ cs.length = f.clauseCount := by
  refine ⟨fun l r hl hr => ?_, fun f hf => ⟨_, normalClauses_eq hf, length_spine_distribute f⟩⟩
  refine ⟨_, _, normalClauses_eq hl, normalClauses_eq hr, one_le_length_spine _,
    one_le_length_spine _, normalClauses_and hl hr, fun hone => ?_, fun htwo => ?_⟩
  · rw [normalClauses_or hl hr, crossed]
    simp only [if_pos hone]
  · have hne : r.distribute.spine.length ≠ 1 := by omega
    rw [normalClauses_or hl hr, crossed]
    simp only [if_neg hne]

/-- `(A & B) | (C & ~D)`, where both sides are split, and `(A & B) | C`, where
only the left one is. -/
theorem clauses_cross_square :
    (binary .or (binary .and (atom ⟨'A'⟩) (atom ⟨'B'⟩))
        (binary .and (atom ⟨'C'⟩) (not (atom ⟨'D'⟩)))).normalClauses =
      .ok [binary .or (atom ⟨'C'⟩) (atom ⟨'A'⟩), binary .or (not (atom ⟨'D'⟩)) (atom ⟨'A'⟩),
        binary .or (atom ⟨'C'⟩) (atom ⟨'B'⟩), binary .or (not (atom ⟨'D'⟩)) (atom ⟨'B'⟩)] ∧
    (binary .or (binary .and (atom ⟨'A'⟩) (atom ⟨'B'⟩)) (atom ⟨'C'⟩)).normalClauses =
      .ok [binary .or (atom ⟨'A'⟩) (atom ⟨'C'⟩), binary .or (atom ⟨'B'⟩) (atom ⟨'C'⟩)] ∧
    ∃ cs, (binary .or (binary .and (atom ⟨'A'⟩) (atom ⟨'B'⟩)) (atom ⟨'C'⟩)).normalClauses =
      .ok cs ∧ cs.length = 2 := by
  have hl : (binary .and (atom ⟨'A'⟩) (atom ⟨'B'⟩)).IsNnf := by decide
  have hr : (binary .and (atom ⟨'C'⟩) (not (atom ⟨'D'⟩))).IsNnf := by decide
  have hc : (atom ⟨'C'⟩).IsNnf := by decide
  refine ⟨?_, ?_, clauses_cross.2 _ ⟨.inr rfl, hl, hc⟩⟩
  · obtain ⟨ls, rs, hls, hrs, -, -, -, -, htwo⟩ := clauses_cross.1 _ _ hl hr
    rw [normalClauses_eq hl] at hls
    rw [normalClauses_eq hr] at hrs
    cases hls
    cases hrs
    exact htwo (by decide)
  · obtain ⟨ls, rs, hls, hrs, -, -, -, hone, -⟩ := clauses_cross.1 _ _ hl hc
    rw [normalClauses_eq hl] at hls
    rw [normalClauses_eq hc] at hrs
    cases hls
    cases hrs
    exact hone (by decide)

end Sentential.Formula
