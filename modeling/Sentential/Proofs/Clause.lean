import Sentential.Clause
import Sentential.Proofs.Literals

/-!
# When a clause holds, and how a formula falls into clauses

A clause is true as soon as one of its literals is, so what its inspection finds can
be read off its literals: one that is true by itself, `T` or the negation of `F`, or
both literals of a variable, of which one is true whichever value the variable takes.
No constant is found besides. The only one that can be in the positive set is `T`,
which is enough to decide, so it does not matter that the negative set may have `T`
for the negation of `T`, nor that it has `F` for a bare `F`.

For the other direction the two sets spell out a falsifying assignment, false for
what is asserted and true for everything else. The constants need no entry: a clause
that is not found valid has neither `T` nor the negation of `F` among its literals,
and the other two literals over the constants are false anyway.

The second half lists the clauses of a formula. The traversal keeps a list of
pending formulas; what it computes is the spine of the conjunction, read off
each pending formula in turn.
-/

namespace Sentential.Formula

/-! ## Valid clauses -/

theorem value_eq_any_literals (m : Assignment) {f : Formula} (h : f.IsClause) :
    f.value m = f.literals.any (Literal.value m) := by
  fun_induction literals f with
  | case1 a => simp [value, Literal.value]
  | case2 a => simp [value, Literal.value]
  | case3 f => exact False.elim h.1
  | case4 c l r => exact False.elim h.1
  | case5 c l r ihl ihr =>
      obtain rfl : c = .or := h.1
      rw [List.any_append, ← ihl h.2.1, ← ihr h.2.2]
      rfl

/-- What the inspection of a clause looks for: the constant true, or an atom
that is both asserted and denied. -/
def HasComplement (f : Formula) : Prop :=
  .verum ∈ f.positiveSet ∨ f.positiveSet.Meets f.negativeSet

instance (f : Formula) : Decidable f.HasComplement :=
  inferInstanceAs (Decidable (_ ∨ _))

theorem hasComplement_iff {f : Formula} :
    f.HasComplement ↔ ⟨.verum, true⟩ ∈ f.literals ∨ ⟨.falsum, false⟩ ∈ f.literals ∨
      ∃ a : Atom, ¬ a.IsConstant ∧ ⟨a, true⟩ ∈ f.literals ∧ ⟨a, false⟩ ∈ f.literals := by
  rw [← or_assoc, ← verum_mem_positiveSet]
  refine Decidable.or_congr_right' fun hT => ⟨fun h => ?_, fun h => ?_⟩
  · obtain ⟨a, hp, hn⟩ := h
    have ha : ¬ a.IsConstant := fun hk => hT (verum_mem_of_isConstant hk hp)
    exact ⟨a, ha, (mem_positiveSet_variable ha).1 hp, (mem_negativeSet_variable ha).1 hn⟩
  · obtain ⟨a, ha, hp, hn⟩ := h
    exact ⟨a, (mem_positiveSet_variable ha).2 hp, (mem_negativeSet_variable ha).2 hn⟩

theorem isTautologicalClause_eq {f : Formula} (h : f.IsClause) :
    f.isTautologicalClause = .ok (decide f.HasComplement) := by
  rw [isTautologicalClause, if_pos h, positiveLiterals, negativeLiterals, if_pos h.isNnf,
    if_pos h.isNnf]
  rfl

theorem value_of_hasComplement {f : Formula} (hc : f.IsClause) (h : f.HasComplement)
    (m : Assignment) : f.value m = true := by
  rw [value_eq_any_literals m hc, List.any_eq_true]
  rcases hasComplement_iff.1 h with hT | hF | ⟨a, -, hp, hn⟩
  · exact ⟨_, hT, rfl⟩
  · exact ⟨_, hF, rfl⟩
  · cases ha : a.value m with
    | true => exact ⟨_, hp, by rw [Literal.value, ha]; rfl⟩
    | false => exact ⟨_, hn, by rw [Literal.value, ha]; rfl⟩

/-- Over a set of atoms, false for what the formula asserts and true for the
rest. -/
def falsifier (f : Formula) (s : AtomSet) : Assignment :=
  .tabulate s fun a => decide (a ∉ f.positiveSet)

/-- Of a clause that is not found valid no literal survives its falsifier, over
any set of atoms that covers the clause. -/
theorem value_falsifier {f : Formula} (hc : f.IsClause) (h : ¬ f.HasComplement)
    {s : AtomSet} (hs : ∀ a ∈ f.atoms, a ∈ s) : f.value (f.falsifier s) = false := by
  rw [hasComplement_iff] at h
  rw [value_eq_any_literals _ hc, List.any_eq_false]
  intro l hl
  obtain ⟨a, sign⟩ := l
  by_cases hk : a.IsConstant
  · -- The constant literals that are true have been looked for.
    rcases hk with rfl | rfl
    · cases sign with
      | true => exact absurd (.inl hl) h
      | false => exact Bool.false_ne_true
    · cases sign with
      | true => exact Bool.false_ne_true
      | false => exact absurd (.inr (.inl hl)) h
  · have hval : a.value (f.falsifier s) = decide (a ∉ f.positiveSet) :=
      Assignment.value_tabulate (hs a (mem_atoms_of_mem_literals hl hk)) hk
    rw [Literal.value, hval]
    cases sign with
    | true =>
        have hp : a ∈ f.positiveSet := (mem_positiveSet_variable hk).2 hl
        rw [decide_eq_false (not_not_intro hp)]
        exact Bool.false_ne_true
    | false =>
        have hp : a ∉ f.positiveSet := fun hp =>
          h (.inr (.inr ⟨a, hk, (mem_positiveSet_variable hk).1 hp, hl⟩))
        rw [decide_eq_true hp]
        exact Bool.false_ne_true

/-! ## The clauses of a formula -/

/-- The leaves of the conjunction at the top of a formula, left to right. -/
def spine : Formula → List Formula
  | binary .and l r => l.spine ++ r.spine
  | f => [f]

theorem conjuncts_eq_flatMap (pending : List Formula) :
    conjuncts pending = pending.flatMap spine := by
  fun_induction conjuncts pending with
  | case1 => rfl
  | case2 l r pending ih =>
      rw [ih, List.flatMap_cons, List.flatMap_cons, List.flatMap_cons, spine,
        List.append_assoc]
  | case3 f pending hf ih =>
      rw [ih, List.flatMap_cons, spine]
      · rfl
      · exact hf

theorem clauses_eq {f : Formula} (h : f.IsCnf) : f.clauses = .ok f.spine := by
  rw [clauses, if_pos h, conjuncts_eq_flatMap, List.flatMap_cons, List.flatMap_nil,
    List.append_nil]

theorem isClause_of_mem_spine {f c : Formula} (h : f.IsCnf) (hc : c ∈ f.spine) :
    c.IsClause := by
  fun_induction spine f with
  | case1 l r ihl ihr =>
      rcases List.mem_append.1 hc with hc | hc
      · exact ihl h.1 hc
      · exact ihr h.2 hc
  | case2 f hf =>
      cases List.mem_singleton.1 hc
      exact h.isClause hf

theorem mem_atoms_of_mem_spine {f c : Formula} {a : Atom} (hc : c ∈ f.spine)
    (ha : a ∈ c.atoms) : a ∈ f.atoms := by
  fun_induction spine f with
  | case1 l r ihl ihr =>
      rcases List.mem_append.1 hc with hc | hc
      · exact mem_atoms_binary.2 (.inl (ihl hc))
      · exact mem_atoms_binary.2 (.inr (ihr hc))
  | case2 f hf =>
      cases List.mem_singleton.1 hc
      exact ha

/-- A formula is true where all the leaves of its conjunction are. -/
theorem value_eq_all_spine (m : Assignment) (f : Formula) :
    f.value m = f.spine.all (value m) := by
  fun_induction spine f with
  | case1 l r ihl ihr =>
      rw [List.all_append, ← ihl, ← ihr]
      rfl
  | case2 f hf => rw [List.all_cons, List.all_nil, Bool.and_true]

end Sentential.Formula
