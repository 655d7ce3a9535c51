import Sentential.Proofs.Context
import Sentential.Proofs.Distribution
import Sentential.Proofs.NegationNormal

/-!
# Both normal forms are projections

A rewriting into a normal form should leave normal forms alone, and it should
make no difference where in a formula one begins with it. Of the conjunctive
normal form both follow from what is known of distribution. It goes side by
side through conjunctions and disjunctions, so it cannot tell whether a side was
distributed before.

Of the negation normal form the second half asks for more. Above the hole there
may be conditionals and biconditionals, which put what is in it under both signs,
so the law has to be one about both: the sign under which a formula is rewritten
and the sign under which its normal form was made go together into one. The
constants are what could go wrong there. A negated constant is folded, and its
negation is folded again, so the two foldings have to undo one another; and the
normal forms that stay as they are are those without a negated constant.
-/

namespace Sentential.Formula

/-! ## Distribution -/

theorem distribute_eq_self {f : Formula} (h : f.IsCnf) : f.distribute = f := by
  induction f with
  | atom a => rfl
  | not f _ => rfl
  | binary c l r ihl ihr =>
      cases c with
      | and => rw [distribute, ihl h.1, ihr h.2]
      | or =>
          -- Neither side has a conjunction at the top, so nothing is split.
          have hl : l.IsClause := h.2.1
          have hr : r.IsClause := h.2.2
          rw [distribute, ihl hl.isCnf, ihr hr.isCnf, disjoin]
          · exact hl.ne_and
          · exact hr.ne_and
      | imply => exact False.elim h
      | iff => exact False.elim h

theorem distribute_fill {k : Context} {f g : Formula} (hk : k.AndOr)
    (h : f.distribute = g.distribute) : (k.fill f).distribute = (k.fill g).distribute := by
  induction k with
  | hole => exact h
  | not k _ => exact False.elim hk
  | left c k r ih | right c l k ih =>
      rcases hk.1 with rfl | rfl <;>
        rw [Context.fill, Context.fill, distribute, distribute, ih hk.2]

theorem conjunctiveNormal_eq_self_iff (f : Formula) :
    f.conjunctiveNormal = .ok f ↔ f.IsCnf := by
  rw [conjunctiveNormal_eq_ok_iff]
  constructor
  · rintro ⟨hf, heq⟩
    exact heq ▸ isCnf_distribute hf
  · exact fun hf => ⟨hf.isNnf, distribute_eq_self hf⟩

/-- The conjunctive normal form of a formula in negation normal form is in
conjunctive normal form and has itself for its own, the formulas that are their
own conjunctive normal form are those in conjunctive normal form, and a part
below conjunctions and disjunctions may be normalised first. -/
theorem conjunctiveNormal_projects :
    (∀ f : Formula, f.IsNnf → ∃ g, f.conjunctiveNormal = .ok g ∧ g.IsCnf ∧
      g.conjunctiveNormal = .ok g) ∧
    (∀ f : Formula, f.conjunctiveNormal = .ok f ↔ f.IsCnf) ∧
    ∀ (k : Context) (f : Formula), k.AndOr → (k.fill f).IsNnf → ∃ g h,
      f.conjunctiveNormal = .ok g ∧ (k.fill f).conjunctiveNormal = .ok h ∧
      (k.fill g).conjunctiveNormal = .ok h := by
  refine ⟨fun f hf => ?_, conjunctiveNormal_eq_self_iff, fun k f hk hfill => ?_⟩
  · have hg : f.distribute.IsCnf := isCnf_distribute hf
    exact ⟨_, conjunctiveNormal_eq hf, hg, (conjunctiveNormal_eq_self_iff _).2 hg⟩
  · obtain ⟨hbeside, hf⟩ := (Context.isNnf_fill hk).1 hfill
    have hg : f.distribute.IsNnf := (isCnf_distribute hf).isNnf
    refine ⟨_, _, conjunctiveNormal_eq hf, conjunctiveNormal_eq hfill, ?_⟩
    rw [conjunctiveNormal_eq ((Context.isNnf_fill hk).2 ⟨hbeside, hg⟩),
      distribute_fill hk (distribute_distribute f)]

/-- `(A & B) | C`, alone and below `□ | (D & E)`. -/
theorem conjunctiveNormal_projects_nested :
    (binary .and (binary .or (atom ⟨'A'⟩) (atom ⟨'C'⟩))
        (binary .or (atom ⟨'B'⟩) (atom ⟨'C'⟩))).conjunctiveNormal =
      .ok (binary .and (binary .or (atom ⟨'A'⟩) (atom ⟨'C'⟩))
        (binary .or (atom ⟨'B'⟩) (atom ⟨'C'⟩))) ∧
    ∃ h, (binary .or (binary .or (binary .and (atom ⟨'A'⟩) (atom ⟨'B'⟩)) (atom ⟨'C'⟩))
        (binary .and (atom ⟨'D'⟩) (atom ⟨'E'⟩))).conjunctiveNormal = .ok h ∧
      (binary .or (binary .and (binary .or (atom ⟨'A'⟩) (atom ⟨'C'⟩))
          (binary .or (atom ⟨'B'⟩) (atom ⟨'C'⟩)))
        (binary .and (atom ⟨'D'⟩) (atom ⟨'E'⟩))).conjunctiveNormal = .ok h := by
  have hnnf : (binary .or (binary .and (atom ⟨'A'⟩) (atom ⟨'B'⟩)) (atom ⟨'C'⟩)).IsNnf := by
    decide
  have hf : (binary .or (binary .and (atom ⟨'A'⟩) (atom ⟨'B'⟩))
      (atom ⟨'C'⟩)).conjunctiveNormal =
      .ok (binary .and (binary .or (atom ⟨'A'⟩) (atom ⟨'C'⟩))
        (binary .or (atom ⟨'B'⟩) (atom ⟨'C'⟩))) := by
    rw [conjunctiveNormal_eq hnnf]
    simp [distribute, disjoin]
  obtain ⟨x, hx, -, hself⟩ := conjunctiveNormal_projects.1 _ hnnf
  obtain ⟨y, h, hy, hh, hfirst⟩ := conjunctiveNormal_projects.2.2
    (.left .or .hole (binary .and (atom ⟨'D'⟩) (atom ⟨'E'⟩))) _ ⟨.inr rfl, trivial⟩
    (show (binary .or (binary .or (binary .and (atom ⟨'A'⟩) (atom ⟨'B'⟩)) (atom ⟨'C'⟩))
      (binary .and (atom ⟨'D'⟩) (atom ⟨'E'⟩))).IsNnf by decide)
  cases hx.symm.trans hf
  cases hy.symm.trans hf
  exact ⟨hself, h, hh, hfirst⟩

/-! ## Pushing negations down -/

/-- No negation stands above a constant. -/
def NegatesNoConstant (f : Formula) : Prop :=
  ∀ a : Atom, a.IsConstant → ¬ (not (atom a)).Occurs f

theorem negatesNoConstant_atom (a : Atom) : (atom a).NegatesNoConstant := by
  intro b _ hocc
  cases occurs_atom_iff.1 hocc

theorem negatesNoConstant_not_atom_iff {a : Atom} :
    (not (atom a)).NegatesNoConstant ↔ ¬ a.IsConstant := by
  constructor
  · exact fun h ha => h a ha ⟨.hole, rfl⟩
  · intro ha b hb hocc
    rcases occurs_not_iff.1 hocc with heq | hocc
    · cases heq
      exact ha hb
    · exact negatesNoConstant_atom a b hb hocc

theorem negatesNoConstant_binary_iff {c : Connective} {l r : Formula} :
    (binary c l r).NegatesNoConstant ↔ l.NegatesNoConstant ∧ r.NegatesNoConstant := by
  constructor
  · intro h
    exact ⟨fun a ha hocc => h a ha (occurs_binary_iff.2 (.inr (.inl hocc))),
      fun a ha hocc => h a ha (occurs_binary_iff.2 (.inr (.inr hocc)))⟩
  · intro h a ha hocc
    rcases occurs_binary_iff.1 hocc with heq | hocc | hocc
    · cases heq
    · exact h.1 a ha hocc
    · exact h.2 a ha hocc

theorem negatesNoConstant_negation (a : Atom) : a.negation.NegatesNoConstant := by
  rcases a.negation_cases with rfl | rfl | ⟨ha, h⟩
  · exact negatesNoConstant_atom _
  · exact negatesNoConstant_atom _
  · exact h ▸ negatesNoConstant_not_atom_iff.2 ha

theorem negatesNoConstant_pushNegation (sign : Bool) (f : Formula) :
    (f.pushNegation sign).NegatesNoConstant := by
  induction f generalizing sign with
  | atom a =>
      cases sign with
      | true => exact negatesNoConstant_atom a
      | false => exact negatesNoConstant_negation a
  | not f ih => exact ih !sign
  | binary c l r ihl ihr =>
      cases c <;> simp only [pushNegation, negatesNoConstant_binary_iff, ihl, ihr, and_self]

theorem pushNegation_eq_self {f : Formula} (h : f.IsNnf) (hc : f.NegatesNoConstant) :
    f.pushNegation true = f := by
  induction f with
  | atom a => rfl
  | not f _ =>
      cases f with
      | atom a => exact Atom.negation_eq_not (negatesNoConstant_not_atom_iff.1 hc)
      | not _ | binary _ _ _ => exact False.elim h.1
  | binary c l r ihl ihr =>
      obtain ⟨hl, hr⟩ := negatesNoConstant_binary_iff.1 hc
      rcases h.1 with rfl | rfl <;> rw [pushNegation, ihl h.2.1 hl, ihr h.2.2 hr] <;> rfl

theorem pushNegation_negation (sign : Bool) (a : Atom) :
    a.negation.pushNegation sign = (atom a).pushNegation (!sign) := by
  rcases a.negation_cases with rfl | rfl | ⟨-, h⟩
  · cases sign <;> rfl
  · cases sign <;> rfl
  · rw [h]
    rfl

/-- Two signs in a row are one, true if they are the same. -/
theorem pushNegation_pushNegation (s t : Bool) (f : Formula) :
    (f.pushNegation s).pushNegation t = f.pushNegation (s == t) := by
  induction f generalizing s t with
  | atom a =>
      cases s with
      | true => cases t <;> rfl
      | false =>
          have h := pushNegation_negation t a
          cases t <;> exact h
  | not f ih =>
      have hsign : ((!s) == t) = !(s == t) := by cases s <;> cases t <;> rfl
      rw [pushNegation, pushNegation, ih, hsign]
  | binary c l r ihl ihr =>
      -- Under each pair of signs both sides are the same tree over the operands.
      cases c <;> cases s <;> cases t <;> simp [pushNegation, ihl, ihr]

theorem pushNegation_fill {k : Context} {f g : Formula}
    (h : ∀ sign, f.pushNegation sign = g.pushNegation sign) (sign : Bool) :
    (k.fill f).pushNegation sign = (k.fill g).pushNegation sign := by
  induction k generalizing sign with
  | hole => exact h sign
  | not k ih => exact ih !sign
  | left c k r ih | right c l k ih =>
      -- Below a biconditional the hole comes twice, once under either sign.
      cases c <;> simp only [Context.fill, pushNegation, ih]

/-- Formulas with the same normal form under either sign, both well-formed or
neither, are alike to the rewriting of whatever has them as a part. -/
theorem negationNormal_fill {k : Context} {f g : Formula} (hw : f.WellFormed ↔ g.WellFormed)
    (h : ∀ sign, f.pushNegation sign = g.pushNegation sign) :
    (k.fill f).negationNormal = (k.fill g).negationNormal := by
  have hfill : (k.fill f).WellFormed ↔ (k.fill g).WellFormed := by
    rw [Context.wellFormed_fill, Context.wellFormed_fill, hw]
  simp only [negationNormal, hfill, pushNegation_fill h]

theorem negationNormal_eq_self_iff (f : Formula) :
    f.negationNormal = .ok f ↔ f.IsNnf ∧ f.NegatesNoConstant := by
  rw [negationNormal_eq_ok_iff]
  constructor
  · rintro ⟨hf, heq⟩
    exact ⟨heq ▸ isNnf_pushNegation hf true, heq ▸ negatesNoConstant_pushNegation true f⟩
  · exact fun ⟨hf, hc⟩ => ⟨hf.wellFormed, pushNegation_eq_self hf hc⟩

/-- The negation normal form of a well-formed formula is in negation normal form,
negates no constant and has itself for its own; the formulas that are their own
negation normal form are those that are like that; and anywhere in a formula a
part may be rewritten first, or negated twice, with the same result, which is a
normal form if what stands beside the part is well-formed. -/
theorem negationNormal_projects :
    (∀ f : Formula, f.WellFormed → ∃ g, f.negationNormal = .ok g ∧ g.IsNnf ∧
      g.NegatesNoConstant ∧ g.negationNormal = .ok g ∧
      ∀ k : Context, (k.fill g).negationNormal = (k.fill f).negationNormal ∧
        (k.fill (not (not f))).negationNormal = (k.fill f).negationNormal ∧
        (k.Beside WellFormed → ∃ h, (k.fill f).negationNormal = .ok h)) ∧
    ∀ f : Formula, f.negationNormal = .ok f ↔ f.IsNnf ∧ f.NegatesNoConstant := by
  refine ⟨fun f hf => ?_, negationNormal_eq_self_iff⟩
  have hnnf : (f.pushNegation true).IsNnf := isNnf_pushNegation hf true
  have hbare : (f.pushNegation true).NegatesNoConstant := negatesNoConstant_pushNegation true f
  refine ⟨_, negationNormal_eq hf, hnnf, hbare, (negationNormal_eq_self_iff _).2 ⟨hnnf, hbare⟩,
    fun k => ⟨?_, ?_, fun hk => ⟨_, negationNormal_eq (Context.wellFormed_fill.2 ⟨hk, hf⟩)⟩⟩⟩
  · refine negationNormal_fill (iff_of_true hnnf.wellFormed hf) fun sign => ?_
    rw [pushNegation_pushNegation, Bool.true_beq]
  · refine negationNormal_fill Iff.rfl fun sign => ?_
    rw [pushNegation, pushNegation, Bool.not_not]

/-- `~(A <-> T)` below `~(□ <-> B)`, where it comes under both signs. -/
theorem negationNormal_projects_biconditional :
    (not (binary .iff (atom ⟨'A'⟩) (atom .verum))).negationNormal =
      .ok (binary .or (binary .and (atom ⟨'A'⟩) (atom .falsum))
        (binary .and (atom .verum) (not (atom ⟨'A'⟩)))) ∧
    ∃ h, (not (binary .iff (not (binary .iff (atom ⟨'A'⟩) (atom .verum)))
        (atom ⟨'B'⟩))).negationNormal = .ok h ∧
      (not (binary .iff (not (not (not (binary .iff (atom ⟨'A'⟩) (atom .verum)))))
        (atom ⟨'B'⟩))).negationNormal = .ok h ∧
      (not (binary .iff (binary .or (binary .and (atom ⟨'A'⟩) (atom .falsum))
          (binary .and (atom .verum) (not (atom ⟨'A'⟩))))
        (atom ⟨'B'⟩))).negationNormal = .ok h := by
  have hf : (not (binary .iff (atom ⟨'A'⟩) (atom .verum))).negationNormal =
      .ok (binary .or (binary .and (atom ⟨'A'⟩) (atom .falsum))
        (binary .and (atom .verum) (not (atom ⟨'A'⟩)))) := by rfl
  obtain ⟨g, hg, -, -, -, hfill⟩ := negationNormal_projects.1
    (not (binary .iff (atom ⟨'A'⟩) (atom .verum))) (by decide)
  obtain ⟨hfirst, htwice, hreturns⟩ := hfill (.not (.left .iff .hole (atom ⟨'B'⟩)))
  have hletter : (atom ⟨'B'⟩).WellFormed := by decide
  obtain ⟨h, hh⟩ := hreturns ⟨trivial, hletter⟩
  rw [hh] at hfirst htwice
  cases hg.symm.trans hf
  exact ⟨hf, h, hh, htwice, hfirst⟩

end Sentential.Formula
