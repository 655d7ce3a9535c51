import Sentential.Literal
import Sentential.NormalForm.Conjunctive
import Sentential.Proofs.Evaluation
import Sentential.Proofs.Shape

/-!
# What distribution keeps, and what it reaches

`disjoin` is where the work is: it takes two formulas that have their normal
form already and splits whichever side is a conjunction, the left one first.
When it splits the right side it turns the operands round, so nothing below
may depend on which operand stands where. Truth does not, and neither does
anything that a formula has because one of its sides has it, an atom or a
literal; both lose sight of the copies that a split makes.

The shape argument runs the other way. A disjunction is built only when
neither side is a conjunction, and a conjunctive normal form that is not a
conjunction is a clause; so every disjunction built is a clause.
-/

namespace Sentential.Formula

/-! ## The disjunction of two normal forms -/

theorem value_disjoin (m : Assignment) (l r : Formula) :
    (disjoin l r).value m = (l.value m || r.value m) := by
  fun_induction disjoin l r with
  | case1 a b other iha ihb =>
      simp only [value, Connective.apply, iha, ihb]
      rw [Bool.or_and_distrib_right]
  | case2 other a b _ iha ihb =>
      simp only [value, Connective.apply, iha, ihb]
      rw [← Bool.or_and_distrib_right, Bool.or_comm]
  | case3 l r _ _ => rfl

/-- What a formula has exactly if one of its sides has it, as it has an atom or a
literal, the disjunction of two normal forms has exactly if one of them does. -/
theorem disjoin_iff_or {p : Formula → Prop} (hp : ∀ c l r, p (binary c l r) ↔ p l ∨ p r)
    (l r : Formula) : p (disjoin l r) ↔ p l ∨ p r := by
  fun_induction disjoin l r with
  | case1 a b other iha ihb =>
      rw [hp, hp, iha, ihb]
      exact or_or_distrib_right.symm
  | case2 other a b _ iha ihb =>
      rw [hp, hp, iha, ihb, ← or_or_distrib_right, or_comm]
  | case3 l r _ _ => exact hp .or l r

theorem isCnf_disjoin {l r : Formula} (hl : l.IsCnf) (hr : r.IsCnf) :
    (disjoin l r).IsCnf := by
  fun_induction disjoin l r with
  | case1 a b other iha ihb => exact ⟨iha hl.1 hr, ihb hl.2 hr⟩
  | case2 other a b _ iha ihb => exact ⟨iha hr.1 hl, ihb hr.2 hl⟩
  | case3 l r hnl hnr => exact ⟨rfl, hl.isClause hnl, hr.isClause hnr⟩

/-! ## The normal form of a formula -/

theorem value_distribute (m : Assignment) (f : Formula) :
    f.distribute.value m = f.value m := by
  fun_induction distribute f with
  | case1 l r ihl ihr => simp only [value, ihl, ihr]
  | case2 l r ihl ihr =>
      rw [value_disjoin, ihl, ihr]
      rfl
  | case3 f _ _ => rfl

theorem distribute_iff {p : Formula → Prop} (hp : ∀ c l r, p (binary c l r) ↔ p l ∨ p r)
    (f : Formula) : p f.distribute ↔ p f := by
  fun_induction distribute f with
  | case1 l r ihl ihr => rw [hp, hp, ihl, ihr]
  | case2 l r ihl ihr => rw [disjoin_iff_or hp, hp, ihl, ihr]
  | case3 f _ _ => exact Iff.rfl

theorem atoms_distribute (f : Formula) : f.distribute.atoms = f.atoms :=
  AtomSet.ext fun a => distribute_iff (p := fun g => a ∈ g.atoms) (fun _ _ _ => mem_atoms_binary) f

theorem mem_literals_distribute {f : Formula} {x : Literal} :
    x ∈ f.distribute.literals ↔ x ∈ f.literals :=
  distribute_iff (p := fun g => x ∈ g.literals) (fun _ _ _ => List.mem_append) f

theorem isCnf_distribute {f : Formula} (h : f.IsNnf) : f.distribute.IsCnf := by
  fun_induction distribute f with
  | case1 l r ihl ihr => exact ⟨ihl h.2.1, ihr h.2.2⟩
  | case2 l r ihl ihr => exact isCnf_disjoin (ihl h.2.1) (ihr h.2.2)
  | case3 f hand hor =>
      cases f with
      | atom a => exact h
      | not g => exact h
      | binary c l r =>
          rcases h.1 with rfl | rfl
          · exact False.elim (hand l r rfl)
          · exact False.elim (hor l r rfl)

theorem equivalent_distribute {f : Formula} (h : f.IsNnf) : f.Equivalent f.distribute where
  wellFormed_left := h.wellFormed
  wellFormed_right := (isCnf_distribute h).isNnf.wellFormed
  atoms_eq := (atoms_distribute f).symm
  value_eq m := (value_distribute m f).symm

/-- The conjunctive normal form of a formula in negation normal form exists. -/
theorem conjunctiveNormal_eq {f : Formula} (h : f.IsNnf) :
    f.conjunctiveNormal = .ok f.distribute := by
  rw [conjunctiveNormal, if_pos h]

theorem conjunctiveNormal_eq_ok_iff {f g : Formula} :
    f.conjunctiveNormal = .ok g ↔ f.IsNnf ∧ f.distribute = g := by
  by_cases h : f.IsNnf
  · rw [conjunctiveNormal_eq h, Except.ok.injEq, and_iff_right h]
  · simp [conjunctiveNormal, h]

/-! ## Normalising again

A normal form stays as it is, in its parts too. That holds of any formula
whatever, since distribution leaves alone what it does not know. -/

theorem distribute_and_eq_self {a b : Formula}
    (h : (binary .and a b).distribute = binary .and a b) :
    a.distribute = a ∧ b.distribute = b := by
  rw [distribute] at h
  injection h with _ ha hb
  exact ⟨ha, hb⟩

theorem distribute_disjoin {l r : Formula} (hl : l.distribute = l) (hr : r.distribute = r) :
    (disjoin l r).distribute = disjoin l r := by
  fun_induction disjoin l r with
  | case1 a b other iha ihb =>
      obtain ⟨ha, hb⟩ := distribute_and_eq_self hl
      rw [distribute, iha ha hr, ihb hb hr]
  | case2 other a b _ iha ihb =>
      obtain ⟨ha, hb⟩ := distribute_and_eq_self hr
      rw [distribute, iha ha hl, ihb hb hl]
  | case3 l r hnl hnr =>
      rw [distribute, hl, hr, disjoin]
      · exact hnl
      · exact hnr

theorem distribute_distribute (f : Formula) : f.distribute.distribute = f.distribute := by
  fun_induction distribute f with
  | case1 l r ihl ihr => rw [distribute, ihl, ihr]
  | case2 l r ihl ihr => exact distribute_disjoin ihl ihr
  | case3 f hand hor => rw [distribute] <;> assumption

end Sentential.Formula
