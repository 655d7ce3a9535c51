import Sentential.Literal
import Sentential.Proofs.Context
import Sentential.Proofs.Evaluation
import Sentential.Proofs.Shape

/-!
# The literals of a formula

In negation normal form a literal stands where only conjunctions and disjunctions
are above it, and the list of the literals has each of these places. What an atom is
free in is a literal too, so the free atoms are the atoms of the list, without the
constants.

The two sets hold the variables by the signs of their literals. The constants go by
their meaning instead: `T` and the negation of `F` both count as asserting `T`, the
negation of `T` is denied under the name `T` and a bare `F` under the name `F`. So
there is one constant that the positive set can have, and an `F` in the negative set
is not the mark of a negation.
-/

namespace Sentential

namespace Literal

/-- The truth value of a literal. -/
def value (m : Assignment) (l : Literal) : Bool :=
  l.atom.value m == l.positive

theorem asserted?_eq_some_iff {l : Literal} {a : Atom} :
    l.asserted? = some a ↔
      (l = ⟨a, true⟩ ∧ a ≠ .falsum) ∨ (l = ⟨.falsum, false⟩ ∧ a = .verum) := by
  obtain ⟨b, s⟩ := l
  by_cases hb : b = .falsum
  · subst hb
    cases s <;> simp [asserted?, eq_comm]
  · cases s
    · simp [asserted?, hb]
    · simp only [asserted?, if_neg hb, Option.some.injEq, mk.injEq, and_true]
      exact ⟨fun h => .inl ⟨h, h ▸ hb⟩, fun h => h.elim And.left fun hF => absurd hF.1.1 hb⟩

theorem denied?_eq_some_iff {l : Literal} {a : Atom} :
    l.denied? = some a ↔
      (l = ⟨a, false⟩ ∧ a ≠ .falsum) ∨ (l = ⟨.falsum, true⟩ ∧ a = .falsum) := by
  obtain ⟨b, s⟩ := l
  by_cases hb : b = .falsum
  · subst hb
    cases s <;> simp [denied?, eq_comm]
  · cases s
    · simp only [denied?, if_neg hb, Option.some.injEq, mk.injEq, and_true]
      exact ⟨fun h => .inl ⟨h, h ▸ hb⟩, fun h => h.elim And.left fun hF => absurd hF.1.1 hb⟩
    · simp [denied?, hb]

/-- The literal as a formula. -/
def formula : Literal → Formula
  | ⟨a, true⟩ => .atom a
  | ⟨a, false⟩ => .not (.atom a)

theorem value_formula (m : Assignment) (l : Literal) :
    l.formula.value m = l.value m := by
  obtain ⟨a, sign⟩ := l
  cases sign with
  | true => exact (beq_true _).symm
  | false => exact (beq_false _).symm

end Literal

namespace Formula

/-! ## Literals in their places -/

/-- The literal stands in the formula, with conjunctions and disjunctions above it
and nothing else. -/
def HasLiteral (f : Formula) (l : Literal) : Prop :=
  ∃ k : Context, k.AndOr ∧ k.fill l.formula = f

theorem hasLiteral_atom_iff {a : Atom} {l : Literal} :
    (atom a).HasLiteral l ↔ l = ⟨a, true⟩ := by
  refine ⟨fun h => ?_, fun h => ⟨.hole, trivial, h ▸ rfl⟩⟩
  obtain ⟨k, -, heq⟩ := h
  cases k with
  | hole =>
      obtain ⟨b, sign⟩ := l
      cases sign <;> cases heq
      rfl
  | not _ | left _ _ _ | right _ _ _ => cases heq

theorem hasLiteral_not_atom_iff {a : Atom} {l : Literal} :
    (not (atom a)).HasLiteral l ↔ l = ⟨a, false⟩ := by
  refine ⟨fun h => ?_, fun h => ⟨.hole, trivial, h ▸ rfl⟩⟩
  obtain ⟨k, hk, heq⟩ := h
  cases k with
  | hole =>
      obtain ⟨b, sign⟩ := l
      cases sign <;> cases heq
      rfl
  | not _ => exact False.elim hk
  | left _ _ _ | right _ _ _ => cases heq

theorem hasLiteral_binary_iff {c : Connective} {f g : Formula} {l : Literal}
    (hc : c = .and ∨ c = .or) :
    (binary c f g).HasLiteral l ↔ f.HasLiteral l ∨ g.HasLiteral l := by
  refine ⟨fun h => ?_, fun h => ?_⟩
  · obtain ⟨k, hk, heq⟩ := h
    cases k with
    | hole =>
        obtain ⟨b, sign⟩ := l
        cases sign <;> cases heq
    | not _ => cases heq
    | left _ k _ =>
        cases heq
        exact .inl ⟨k, hk.2, rfl⟩
    | right _ _ k =>
        cases heq
        exact .inr ⟨k, hk.2, rfl⟩
  · rcases h with ⟨k, hk, rfl⟩ | ⟨k, hk, rfl⟩
    · exact ⟨.left c k g, ⟨hc, hk⟩, rfl⟩
    · exact ⟨.right c f k, ⟨hc, hk⟩, rfl⟩

/-- The list of the literals has those that stand in the formula, and no others. -/
theorem mem_literals_iff {f : Formula} (h : f.IsNnf) {l : Literal} :
    l ∈ f.literals ↔ f.HasLiteral l := by
  fun_induction literals f with
  | case1 a => rw [List.mem_singleton, hasLiteral_atom_iff]
  | case2 a => rw [List.mem_singleton, hasLiteral_not_atom_iff]
  | case3 f => exact False.elim h.1
  | case4 c l r => exact False.elim h.1
  | case5 c f g ihf ihg =>
      rw [List.mem_append, ihf h.2.1, ihg h.2.2, hasLiteral_binary_iff h.1]

theorem mem_atoms_of_mem_literals {f : Formula} {l : Literal} (h : l ∈ f.literals)
    (hl : ¬ l.atom.IsConstant) : l.atom ∈ f.atoms := by
  fun_induction literals f with
  | case1 a =>
      cases List.mem_singleton.1 h
      exact mem_atoms_atom.2 ⟨rfl, hl⟩
  | case2 a =>
      cases List.mem_singleton.1 h
      exact mem_atoms_atom.2 ⟨rfl, hl⟩
  | case3 f => cases h
  | case4 c l r => cases h
  | case5 c f g ihf ihg =>
      rcases List.mem_append.1 h with h | h
      · exact mem_atoms_binary.2 (.inl (ihf h))
      · exact mem_atoms_binary.2 (.inr (ihg h))

/-- The other way round, a free atom stands in some literal. -/
theorem exists_mem_literals {f : Formula} (h : f.IsNnf) {a : Atom} (ha : a ∈ f.atoms) :
    ¬ a.IsConstant ∧ ∃ sign, ⟨a, sign⟩ ∈ f.literals := by
  fun_induction literals f with
  | case1 b =>
      obtain ⟨rfl, hk⟩ := mem_atoms_atom.1 ha
      exact ⟨hk, true, List.mem_singleton_self _⟩
  | case2 b =>
      obtain ⟨rfl, hk⟩ := mem_atoms_atom.1 (mem_atoms_not.1 ha)
      exact ⟨hk, false, List.mem_singleton_self _⟩
  | case3 f => exact False.elim h.1
  | case4 c l r => exact False.elim h.1
  | case5 c f g ihf ihg =>
      rcases mem_atoms_binary.1 ha with ha | ha
      · obtain ⟨hk, sign, hl⟩ := ihf h.2.1 ha
        exact ⟨hk, sign, List.mem_append_left _ hl⟩
      · obtain ⟨hk, sign, hl⟩ := ihg h.2.2 ha
        exact ⟨hk, sign, List.mem_append_right _ hl⟩

/-! ## Literals in the two sets -/

theorem mem_positiveSet {f : Formula} {a : Atom} :
    a ∈ f.positiveSet ↔
      (⟨a, true⟩ ∈ f.literals ∧ a ≠ .falsum) ∨ (⟨.falsum, false⟩ ∈ f.literals ∧ a = .verum) := by
  rw [positiveSet, AtomSet.mem_ofList, List.mem_filterMap]
  refine ⟨fun h => ?_, fun h => ?_⟩
  · obtain ⟨l, hl, has⟩ := h
    rcases Literal.asserted?_eq_some_iff.1 has with ⟨rfl, hne⟩ | ⟨rfl, heq⟩
    · exact .inl ⟨hl, hne⟩
    · exact .inr ⟨hl, heq⟩
  · rcases h with ⟨hl, hne⟩ | ⟨hl, heq⟩
    · exact ⟨_, hl, Literal.asserted?_eq_some_iff.2 (.inl ⟨rfl, hne⟩)⟩
    · exact ⟨_, hl, Literal.asserted?_eq_some_iff.2 (.inr ⟨rfl, heq⟩)⟩

theorem mem_negativeSet {f : Formula} {a : Atom} :
    a ∈ f.negativeSet ↔
      (⟨a, false⟩ ∈ f.literals ∧ a ≠ .falsum) ∨ (⟨.falsum, true⟩ ∈ f.literals ∧ a = .falsum) := by
  rw [negativeSet, AtomSet.mem_ofList, List.mem_filterMap]
  refine ⟨fun h => ?_, fun h => ?_⟩
  · obtain ⟨l, hl, hde⟩ := h
    rcases Literal.denied?_eq_some_iff.1 hde with ⟨rfl, hne⟩ | ⟨rfl, heq⟩
    · exact .inl ⟨hl, hne⟩
    · exact .inr ⟨hl, heq⟩
  · rcases h with ⟨hl, hne⟩ | ⟨hl, heq⟩
    · exact ⟨_, hl, Literal.denied?_eq_some_iff.2 (.inl ⟨rfl, hne⟩)⟩
    · exact ⟨_, hl, Literal.denied?_eq_some_iff.2 (.inr ⟨rfl, heq⟩)⟩

/-- Nothing asserts `F`. -/
theorem falsum_notMem_positiveSet (f : Formula) : .falsum ∉ f.positiveSet := by
  intro h
  rcases mem_positiveSet.1 h with ⟨-, hne⟩ | ⟨-, heq⟩
  · exact hne rfl
  · exact absurd heq (by decide)

/-- A variable is in the positive set if it stands somewhere without a negation. -/
theorem mem_positiveSet_variable {f : Formula} {a : Atom} (ha : ¬ a.IsConstant) :
    a ∈ f.positiveSet ↔ ⟨a, true⟩ ∈ f.literals := by
  rw [mem_positiveSet, and_iff_left fun h => ha (.inr h)]
  exact or_iff_left fun h => ha (.inl h.2)

/-- It is in the negative set if it stands somewhere with one. -/
theorem mem_negativeSet_variable {f : Formula} {a : Atom} (ha : ¬ a.IsConstant) :
    a ∈ f.negativeSet ↔ ⟨a, false⟩ ∈ f.literals := by
  rw [mem_negativeSet, and_iff_left fun h => ha (.inr h)]
  exact or_iff_left fun h => ha (.inr h.2)

theorem verum_mem_positiveSet {f : Formula} :
    .verum ∈ f.positiveSet ↔
      ⟨.verum, true⟩ ∈ f.literals ∨ ⟨.falsum, false⟩ ∈ f.literals := by
  rw [mem_positiveSet, and_iff_left (by decide), and_iff_left rfl]

/-- `T` is the only constant that is ever asserted. -/
theorem verum_mem_of_isConstant {f : Formula} {a : Atom} (ha : a.IsConstant)
    (hp : a ∈ f.positiveSet) : .verum ∈ f.positiveSet := by
  rcases ha with rfl | rfl
  · exact hp
  · exact absurd hp (falsum_notMem_positiveSet f)

theorem verum_mem_negativeSet {f : Formula} :
    .verum ∈ f.negativeSet ↔ ⟨.verum, false⟩ ∈ f.literals := by
  rw [mem_negativeSet, and_iff_left (by decide)]
  exact or_iff_left fun h => absurd h.2 (by decide)

theorem falsum_mem_negativeSet {f : Formula} :
    .falsum ∈ f.negativeSet ↔ ⟨.falsum, true⟩ ∈ f.literals := by
  rw [mem_negativeSet, and_iff_left rfl]
  exact or_iff_right fun h => h.2 rfl

/-- Without the constants, the two sets together have the free atoms. -/
theorem mem_atoms_iff {f : Formula} (h : f.IsNnf) {a : Atom} :
    a ∈ f.atoms ↔ a ∈ f.positiveSet ∪ f.negativeSet ∧ ¬ a.IsConstant := by
  rw [AtomSet.mem_union]
  refine ⟨fun ha => ?_, fun ha => ?_⟩
  · obtain ⟨hk, sign, hl⟩ := exists_mem_literals h ha
    cases sign with
    | true => exact ⟨.inl ((mem_positiveSet_variable hk).2 hl), hk⟩
    | false => exact ⟨.inr ((mem_negativeSet_variable hk).2 hl), hk⟩
  · obtain ⟨hp | hn, hk⟩ := ha
    · exact mem_atoms_of_mem_literals ((mem_positiveSet_variable hk).1 hp) hk
    · exact mem_atoms_of_mem_literals ((mem_negativeSet_variable hk).1 hn) hk

/-- Formulas with the same literals have the same two sets. -/
theorem positiveSet_congr {f g : Formula} (h : ∀ l, l ∈ f.literals ↔ l ∈ g.literals) :
    f.positiveSet = g.positiveSet :=
  AtomSet.ext fun a => by rw [mem_positiveSet, mem_positiveSet, h, h]

theorem negativeSet_congr {f g : Formula} (h : ∀ l, l ∈ f.literals ↔ l ∈ g.literals) :
    f.negativeSet = g.negativeSet :=
  AtomSet.ext fun a => by rw [mem_negativeSet, mem_negativeSet, h, h]

end Formula

end Sentential
