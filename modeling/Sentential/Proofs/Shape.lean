import Sentential.Formula.Shape

/-!
# The shapes in one line

The four shape predicates are separate recursions, each with its own idea of
what may stand below what. For a well-formed formula they form a chain, and
every operation that asks for one shape and hands its argument to an operation
that asks for another leans on a link of it. The links are proved here, each
by the recursion of the narrower predicate.
-/

namespace Sentential.Formula

theorem IsNnf.wellFormed {f : Formula} (h : f.IsNnf) : f.WellFormed := by
  induction f with
  | atom a => exact h
  | not g _ => exact h.2
  | binary c l r ihl ihr => exact ⟨ihl h.2.1, ihr h.2.2⟩

theorem IsClause.isNnf {f : Formula} (h : f.IsClause) : f.IsNnf := by
  induction f with
  | atom a => exact h
  | not g _ => exact h
  | binary c l r ihl ihr => exact ⟨.inr h.1, ihl h.2.1, ihr h.2.2⟩

theorem IsClause.isCnf {f : Formula} (h : f.IsClause) : f.IsCnf := by
  cases f with
  | atom a => exact h
  | not g => exact h
  | binary c l r =>
      obtain rfl : c = .or := h.1
      exact h

theorem IsCnf.isNnf {f : Formula} (h : f.IsCnf) : f.IsNnf := by
  induction f with
  | atom a => exact h
  | not g _ => exact h
  | binary c l r ihl ihr =>
      cases c with
      | and => exact ⟨.inl rfl, ihl h.1, ihr h.2⟩
      | or => exact IsClause.isNnf h
      | imply => exact False.elim h
      | iff => exact False.elim h

theorem IsClause.ne_and {f : Formula} (h : f.IsClause) (a b : Formula) : f ≠ binary .and a b := by
  rintro rfl
  cases h.1

/-- The other way round, only a conjunction keeps a formula in conjunctive
normal form from being a clause. -/
theorem IsCnf.isClause {f : Formula} (h : f.IsCnf) (hf : ∀ a b, f ≠ binary .and a b) :
    f.IsClause := by
  cases f with
  | atom a => exact h
  | not g => exact h
  | binary c l r =>
      cases c with
      | and => exact absurd rfl (hf l r)
      | or => exact h
      | imply => exact False.elim h
      | iff => exact False.elim h

end Sentential.Formula
