import Sentential.Proofs.Distribution
import Sentential.Proofs.Literals

/-!
# What the two sets of literals say

Neither a conjunction nor a disjunction turns a true side into a reason to be false,
so a formula in negation normal form can only gain by literals becoming true
(`value_of_literals`). That is all there is to polarity: a variable that is never
denied may be switched on, and one that is never asserted may be switched off.

Distribution makes copies of literals and turns them round, but it makes no new ones
and leaves none out, so all of this is the same for the conjunctive normal form.
-/

namespace Sentential.Formula

/-! ## Switching a variable -/

/-- A formula in negation normal form stays true where its literals do. -/
theorem value_of_literals {f : Formula} (h : f.IsNnf) {m n : Assignment}
    (hkeep : ∀ l ∈ f.literals, l.value m = true → l.value n = true) (hf : f.value m = true) :
    f.value n = true := by
  fun_induction literals f with
  | case1 a | case2 a =>
      have ha := hkeep _ (List.mem_singleton_self _)
      rw [← Literal.value_formula, ← Literal.value_formula] at ha
      exact ha hf
  | case3 f => exact False.elim h.1
  | case4 c l r => exact False.elim h.1
  | case5 c f g ihf ihg =>
      have hl := ihf h.2.1 fun l hl => hkeep l (List.mem_append_left _ hl)
      have hr := ihg h.2.2 fun l hl => hkeep l (List.mem_append_right _ hl)
      rcases h.1 with rfl | rfl
      · obtain ⟨hfm, hgm⟩ := Bool.and_eq_true_iff.1 hf
        exact Bool.and_eq_true_iff.2 ⟨hl hfm, hr hgm⟩
      · exact Bool.or_eq_true_iff.2 ((Bool.or_eq_true_iff.1 hf).imp hl hr)

/-- Of the two literals of a variable only one stands in the formula. Then the
formula stays true if the variable changes to the sign of that one. -/
theorem value_insert_sign (sign : Bool) {f : Formula} (h : f.IsNnf) {m : Assignment} {a : Atom}
    (ha : ¬ a.IsConstant) (hl : ⟨a, !sign⟩ ∉ f.literals)
    (hf : f.value (m.insert a !sign) = true) : f.value (m.insert a sign) = true := by
  refine value_of_literals h ?_ hf
  intro l hmem hm
  obtain ⟨b, s⟩ := l
  by_cases hb : b = a
  · subst hb
    have hs : s = sign :=
      Decidable.byContradiction fun hne => hl (Bool.eq_not_of_ne hne ▸ hmem)
    rw [Literal.value, Atom.value_insert_self ha, hs, beq_self_eq_true]
  · rw [Literal.value, Atom.value_insert_of_ne hb] at hm ⊢
    exact hm

/-- The two sets of a formula in negation normal form exist, and together they have the
free atoms and nothing else but constants. `F` is not in the positive set, and `T` is
exactly if `T` or the negation of `F` is a literal; the negative set has `T` exactly if
its negation is a literal and `F` exactly if it is one itself. A variable that is not
in the negative set keeps the formula true when it changes from false to true, and
one that is not in the positive set does when it changes from true to false. -/
theorem literal_sets_describe_polarity {f : Formula} (h : f.IsNnf) : ∃ ps ns,
    f.positiveLiterals = .ok ps ∧ f.negativeLiterals = .ok ns ∧
      (∀ a, a ∈ ps ∪ ns ∧ ¬ a.IsConstant ↔ a ∈ f.atoms) ∧
      .falsum ∉ ps ∧
      (.verum ∈ ps ↔ f.HasLiteral ⟨.verum, true⟩ ∨ f.HasLiteral ⟨.falsum, false⟩) ∧
      (.verum ∈ ns ↔ f.HasLiteral ⟨.verum, false⟩) ∧
      (.falsum ∈ ns ↔ f.HasLiteral ⟨.falsum, true⟩) ∧
      ∀ a : Atom, ¬ a.IsConstant → ∀ m : Assignment, m.Covers f →
        (a ∉ ns → f.evaluate (m.insert a false) = .ok true →
          f.evaluate (m.insert a true) = .ok true) ∧
        (a ∉ ps → f.evaluate (m.insert a true) = .ok true →
          f.evaluate (m.insert a false) = .ok true) := by
  simp only [← mem_literals_iff h]
  refine ⟨f.positiveSet, f.negativeSet, if_pos h, if_pos h, fun a => (mem_atoms_iff h).symm,
    falsum_notMem_positiveSet f, verum_mem_positiveSet, verum_mem_negativeSet,
    falsum_mem_negativeSet, fun a ha m hm => ?_⟩
  have heval : ∀ v, f.evaluate (m.insert a v) = .ok (f.value (m.insert a v)) :=
    fun v => evaluate_of_covers h.wellFormed (hm.insert a v)
  rw [heval, heval, Except.ok.injEq, Except.ok.injEq, mem_negativeSet_variable ha,
    mem_positiveSet_variable ha]
  exact ⟨value_insert_sign true h ha, value_insert_sign false h ha⟩

/-- `(A | ~T) | (~B & ~F)`, with the constant `T` in both sets and each of the
variables in one. -/
def switchable : Formula :=
  binary .or (binary .or (atom ⟨'A'⟩) (not (atom .verum)))
    (binary .and (not (atom ⟨'B'⟩)) (not (atom .falsum)))

theorem literal_sets_describe_polarity_switchable :
    switchable.IsNnf ∧ switchable.positiveLiterals = .ok (.ofList [⟨'A'⟩, .verum]) ∧
      switchable.negativeLiterals = .ok (.ofList [⟨'B'⟩, .verum]) ∧
      (switchable.HasLiteral ⟨.verum, true⟩ ∨ switchable.HasLiteral ⟨.falsum, false⟩) ∧
      ¬ switchable.HasLiteral ⟨.falsum, true⟩ ∧
      switchable.evaluate (.ofList [(⟨'A'⟩, false), (⟨'B'⟩, false)]) = .ok true ∧
      switchable.evaluate (.ofList [(⟨'A'⟩, true), (⟨'B'⟩, false)]) = .ok true := by
  have hnnf : switchable.IsNnf := by decide
  have hps : switchable.positiveLiterals = .ok (.ofList [⟨'A'⟩, .verum]) := by rfl
  have hns : switchable.negativeLiterals = .ok (.ofList [⟨'B'⟩, .verum]) := by rfl
  have hoff : switchable.evaluate (.ofList [(⟨'A'⟩, false), (⟨'B'⟩, false)]) = .ok true := by rfl
  have hcovers :
      (Assignment.ofList [(⟨'A'⟩, false), (⟨'B'⟩, false)]).Covers switchable := by
    show ∀ a ∈ switchable.atoms.toList, a ∈ Assignment.ofList _
    decide
  obtain ⟨ps, ns, hps', hns', -, -, hverum, -, hfalsum, hswitch⟩ :=
    literal_sets_describe_polarity hnnf
  cases hps'.symm.trans hps
  cases hns'.symm.trans hns
  have hbare : ¬ switchable.HasLiteral ⟨.falsum, true⟩ :=
    fun hl => absurd (hfalsum.2 hl) (by decide)
  have hon : switchable.evaluate (.ofList [(⟨'A'⟩, true), (⟨'B'⟩, false)]) = .ok true :=
    (hswitch ⟨'A'⟩ (by decide) _ hcovers).1 (by decide) hoff
  exact ⟨hnnf, hps, hns, hverum.1 (by decide), hbare, hoff, hon⟩

/-! ## After distribution -/

/-- The conjunctive normal form of a formula in negation normal form has exactly the
literals of the formula, and so it has the same two sets. -/
theorem distribution_keeps_literals {f : Formula} (h : f.IsNnf) : ∃ g ps ns,
    f.conjunctiveNormal = .ok g ∧
      f.positiveLiterals = .ok ps ∧ g.positiveLiterals = .ok ps ∧
      f.negativeLiterals = .ok ns ∧ g.negativeLiterals = .ok ns ∧
      ∀ l, g.HasLiteral l ↔ f.HasLiteral l := by
  have hg : f.distribute.IsNnf := (isCnf_distribute h).isNnf
  refine ⟨f.distribute, f.positiveSet, f.negativeSet, conjunctiveNormal_eq h, if_pos h, ?_,
    if_pos h, ?_, fun l => ?_⟩
  · rw [positiveLiterals, if_pos hg, positiveSet_congr fun _ => mem_literals_distribute]
  · rw [negativeLiterals, if_pos hg, negativeSet_congr fun _ => mem_literals_distribute]
  · rw [← mem_literals_iff hg, ← mem_literals_iff h, mem_literals_distribute]

/-- `(A & ~F) | (~B & ~T)`, where each side is copied. -/
theorem distribution_keeps_literals_square : ∃ g,
    (binary .or (binary .and (atom ⟨'A'⟩) (not (atom .falsum)))
        (binary .and (not (atom ⟨'B'⟩)) (not (atom .verum)))).conjunctiveNormal = .ok g ∧
      g.positiveLiterals = .ok (.ofList [⟨'A'⟩, .verum]) ∧
      g.negativeLiterals = .ok (.ofList [⟨'B'⟩, .verum]) ∧
      g.HasLiteral ⟨.falsum, false⟩ ∧ ¬ g.HasLiteral ⟨.verum, true⟩ := by
  have hnnf : (binary .or (binary .and (atom ⟨'A'⟩) (not (atom .falsum)))
      (binary .and (not (atom ⟨'B'⟩)) (not (atom .verum)))).IsNnf := by decide
  obtain ⟨g, ps, ns, hg, hps, hgps, hns, hgns, hliterals⟩ := distribution_keeps_literals hnnf
  cases hps
  cases hns
  refine ⟨g, hg, hgps, hgns, (hliterals _).2 ?_, fun hl => ?_⟩
  · exact (mem_literals_iff hnnf).1 (by decide)
  · exact absurd ((mem_literals_iff hnnf).2 ((hliterals _).1 hl)) (by decide)

end Sentential.Formula
