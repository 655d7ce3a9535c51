import Sentential.Proofs.Validity

/-!
# A clause is valid by a literal or by two

The verdict on a clause comes from its two sets, and whether the clause is valid is a
matter of all assignments. Both are compared with the literals in `Clause.lean`, and
here they are put together: the verdict decides validity, and it is true exactly if
the clause has a literal that is true by itself or the two literals of a variable.

A verdict of false comes with an assignment that bears it out, and that is the positive
set read as one. The falsifier of the clause has an entry for each free atom, and it
is false for what the positive set has. For that to be all of the set there must be
no constant in it; the only one there could be is `T`, with which the verdict is true.
-/

namespace Sentential.Formula

/-! ## The falsifier of a clause -/

theorem get?_falsifier_eq_false_iff {f : Formula} (h : f.IsNnf) (hT : .verum ∉ f.positiveSet)
    {a : Atom} : (f.falsifier f.atoms).get? a = some false ↔ a ∈ f.positiveSet := by
  rw [falsifier, Assignment.get?_tabulate_eq_some_iff, decide_eq_false_iff_not,
    Decidable.not_not]
  refine and_iff_right_of_imp fun hp => (mem_atoms_iff h).2 ⟨AtomSet.mem_union.2 (.inl hp), ?_⟩
  exact fun hk => hT (verum_mem_of_isConstant hk hp)

theorem get?_falsifier_eq_true_iff {f : Formula} {a : Atom} :
    (f.falsifier f.atoms).get? a = some true ↔ a ∈ f.atoms ∧ a ∉ f.positiveSet := by
  rw [falsifier, Assignment.get?_tabulate_eq_some_iff, decide_eq_true_iff]

theorem evaluate_falsifier {c : Formula} (hc : c.IsClause) (h : ¬ c.HasComplement) :
    c.evaluate (c.falsifier c.atoms) = .ok false := by
  have hcovers : (c.falsifier c.atoms).Covers c := Assignment.covers_tabulate c _
  rw [evaluate_of_covers hc.isNnf.wellFormed hcovers, value_falsifier hc h fun _ ha => ha]

/-! ## The verdict -/

theorem decidesValidity_isTautologicalClause {c : Formula} (hc : c.IsClause) :
    DecidesValidity c.isTautologicalClause c := by
  rw [isTautologicalClause_eq hc]
  by_cases h : c.HasComplement
  · rw [decide_eq_true h]
    apply decidesValidity_of_valid
    intro m hm
    rw [evaluate_of_covers hc.isNnf.wellFormed hm, value_of_hasComplement hc h m]
  · rw [decide_eq_false h]
    exact decidesValidity_of_refuted (Assignment.covers_tabulate c _) (evaluate_falsifier hc h)

/-- The inspection of a clause decides its validity. It finds a clause valid exactly
if `T` or the negation of `F` is a literal of it or some variable has both its
literals there; a constant in both sets never is the only reason. Where it finds
otherwise, the clause is false under the assignment that has false for what is in
the positive set and true for the other free atoms. -/
theorem clause_inspection_decides {c : Formula} (h : c.IsClause) :
    DecidesValidity c.isTautologicalClause c ∧
    (c.isTautologicalClause = .ok true ↔
      c.HasLiteral ⟨.verum, true⟩ ∨ c.HasLiteral ⟨.falsum, false⟩ ∨
        ∃ a : Atom, ¬ a.IsConstant ∧ c.HasLiteral ⟨a, true⟩ ∧ c.HasLiteral ⟨a, false⟩) ∧
    ∃ ps ns, c.positiveLiterals = .ok ps ∧ c.negativeLiterals = .ok ns ∧
      (∀ a ∈ ns, a.IsConstant → a ∈ ps →
        c.HasLiteral ⟨.verum, true⟩ ∨ c.HasLiteral ⟨.falsum, false⟩) ∧
      (c.isTautologicalClause = .ok false → ∃ m : Assignment,
        (∀ a, m.get? a = some false ↔ a ∈ ps) ∧
        (∀ a, m.get? a = some true ↔ a ∈ c.atoms ∧ a ∉ ps) ∧
        c.evaluate m = .ok false) := by
  have hn : c.IsNnf := h.isNnf
  simp only [← mem_literals_iff hn]
  refine ⟨decidesValidity_isTautologicalClause h, ?_, c.positiveSet, c.negativeSet, if_pos hn,
    if_pos hn, fun a _ hk hp => verum_mem_positiveSet.1 (verum_mem_of_isConstant hk hp), ?_⟩
  · rw [isTautologicalClause_eq h, Except.ok.injEq, decide_eq_true_iff, hasComplement_iff]
  · rw [isTautologicalClause_eq h, Except.ok.injEq, decide_eq_false_iff_not]
    intro hc
    exact ⟨c.falsifier c.atoms, fun _ => get?_falsifier_eq_false_iff hn fun hT => hc (.inl hT),
      fun _ => get?_falsifier_eq_true_iff, evaluate_falsifier h hc⟩

/-- `(A | ~T) | (F | ~B)`, where both constants are denied. -/
def deniedConstants : Formula :=
  binary .or (binary .or (atom ⟨'A'⟩) (not (atom .verum)))
    (binary .or (atom .falsum) (not (atom ⟨'B'⟩)))

theorem clause_inspection_decides_deniedConstants :
    deniedConstants.IsClause ∧
      deniedConstants.positiveLiterals = .ok (.ofList [⟨'A'⟩]) ∧
      deniedConstants.negativeLiterals = .ok (.ofList [⟨'B'⟩, .falsum, .verum]) ∧
      deniedConstants.isTautologicalClause = .ok false ∧
      ∃ m : Assignment, m.get? ⟨'A'⟩ = some false ∧ m.get? ⟨'B'⟩ = some true ∧
        deniedConstants.evaluate m = .ok false := by
  have hc : deniedConstants.IsClause := by decide
  have hps : deniedConstants.positiveLiterals = .ok (.ofList [⟨'A'⟩]) := by rfl
  have hfalse : deniedConstants.isTautologicalClause = .ok false := by rfl
  obtain ⟨-, -, ps, ns, hps', hns, -, hrefute⟩ := clause_inspection_decides hc
  cases hps'.symm.trans hps
  obtain ⟨m, hasserted, hother, heval⟩ := hrefute hfalse
  exact ⟨hc, hps, by rfl, hfalse, m, (hasserted _).2 (by decide), (hother _).2 (by decide), heval⟩

end Sentential.Formula
