import Sentential.Proofs.Complement
import Sentential.Proofs.CrossProduct
import Sentential.Proofs.Projection

/-!
# What the shortcut of the decision leaves out

A formula in conjunctive normal form is inspected without conversion. Conversion
would not leave it as it is: it may negate constants, and nothing that the conversion
returns does. But that is all. Distribution finds nothing to do, and each negated
constant becomes the other constant where it stands, so the two formulas have their
clauses side by side.

The change shows in the two sets of a clause, since `~T` denies `T` where `F` denies
`F`. The verdict on the clause does not depend on that. It says whether the clause is
valid, and a folded clause is equivalent to the clause.
-/

namespace Sentential.Formula

/-- The formula with `F` in the place of every `~T` and `T` in that of every `~F`. -/
def foldConstants : Formula → Formula
  | atom a => atom a
  | not (atom a) =>
    if a = .verum then atom .falsum
    else if a = .falsum then atom .verum
    else not (atom a)
  | not f => not f.foldConstants
  | binary c l r => binary c l.foldConstants r.foldConstants

theorem pushNegation_eq_foldConstants {f : Formula} (h : f.IsNnf) :
    f.pushNegation true = f.foldConstants := by
  induction f with
  | atom a => rfl
  | not f _ =>
      cases f with
      | atom a => rfl
      | not _ | binary _ _ _ => exact False.elim h.1
  | binary c l r ihl ihr =>
      rcases h.1 with rfl | rfl <;>
        rw [pushNegation, foldConstants, ihl h.2.1, ihr h.2.2] <;> rfl

theorem equivalent_foldConstants {f : Formula} (h : f.IsNnf) : f.Equivalent f.foldConstants :=
  pushNegation_eq_foldConstants h ▸ equivalent_pushNegation h.wellFormed

theorem isClause_foldConstants {f : Formula} (h : f.IsClause) : f.foldConstants.IsClause := by
  induction f with
  | atom a => exact h
  | not f _ =>
      cases f with
      | atom a =>
          show a.negation.IsClause
          rcases a.negation_cases with rfl | rfl | ⟨-, heq⟩
          · decide
          · decide
          · exact heq ▸ h
      | not _ | binary _ _ _ => exact False.elim h.1
  | binary c l r ihl ihr => exact ⟨h.1, ihl h.2.1, ihr h.2.2⟩

theorem isCnf_foldConstants {f : Formula} (h : f.IsCnf) : f.foldConstants.IsCnf := by
  induction f with
  | atom a => exact h
  | not f _ => exact (isClause_foldConstants h).isCnf
  | binary c l r ihl ihr =>
      cases c with
      | and => exact ⟨ihl h.1, ihr h.2⟩
      | or => exact (isClause_foldConstants h).isCnf
      | imply | iff => exact False.elim h

/-- The clauses of the folded formula are the folded clauses. -/
theorem spine_foldConstants {f : Formula} (h : f.IsCnf) :
    f.foldConstants.spine = f.spine.map foldConstants := by
  fun_induction spine f with
  | case1 l r ihl ihr => rw [foldConstants, spine, ihl h.1, ihr h.2, List.map_append]
  | case2 f hf =>
      have hc : f.IsClause := h.isClause hf
      rw [spine_eq_singleton (isClause_foldConstants hc).ne_and, List.map_singleton]

theorem normalize_eq_foldConstants {f : Formula} (h : f.IsCnf) :
    f.normalize = .ok f.foldConstants := by
  rw [normalize_eq h.isNnf.wellFormed, pushNegation_eq_foldConstants h.isNnf,
    distribute_eq_self (isCnf_foldConstants h)]

theorem isTautologicalClause_foldConstants {c : Formula} (h : c.IsClause) :
    c.foldConstants.isTautologicalClause = c.isTautologicalClause :=
  ((decidesValidity_isTautologicalClause h).verdict_eq
    (decidesValidity_isTautologicalClause (isClause_foldConstants h))
    (equivalent_foldConstants h.isNnf)).symm

/-- The conversion of a conjunctive normal form folds its negated constants and does
nothing else. It has as many clauses, the same verdict is returned on each and on its
conversion, and so it makes no difference which of the two formulas is decided, nor
whether that is by the shortcut. -/
theorem shortcut_agrees_clausewise {f : Formula} (h : f.IsCnf) :
    f.normalize = .ok f.foldConstants ∧
    (∃ cs ds, f.clauses = .ok cs ∧ f.foldConstants.clauses = .ok ds ∧
      ds = cs.map foldConstants ∧ cs.length = ds.length ∧
      ∀ i (hc : i < cs.length) (hd : i < ds.length), ∃ b,
        cs[i].isTautologicalClause = .ok b ∧ ds[i].isTautologicalClause = .ok b) ∧
    ∃ b, (do allTautological (← f.clauses)) = .ok b ∧
      (do allTautological (← (← f.normalize).clauses)) = .ok b ∧
      f.isTautology = .ok b ∧ f.foldConstants.isTautology = .ok b := by
  have hfold : f.foldConstants.IsCnf := isCnf_foldConstants h
  have hequiv : f.Equivalent f.foldConstants := equivalent_foldConstants h.isNnf
  have hself : f.Equivalent f := .refl hequiv.wellFormed_left
  refine ⟨normalize_eq_foldConstants h, ?_, ?_⟩
  · refine ⟨f.spine, f.foldConstants.spine, clauses_eq h, clauses_eq hfold,
      spine_foldConstants h, ?_, fun i hc hd => ?_⟩
    · rw [spine_foldConstants h, List.length_map]
    · have hclause : f.spine[i].IsClause := isClause_of_mem_spine h (List.getElem_mem hc)
      obtain ⟨b, hb⟩ := (decidesValidity_isTautologicalClause hclause).returns
      refine ⟨b, hb, ?_⟩
      simp only [spine_foldConstants h, List.getElem_map]
      rw [isTautologicalClause_foldConstants hclause, hb]
  · have hdecided := decidesValidity_isTautology hequiv.wellFormed_left
    obtain ⟨b, hb⟩ := hdecided.returns
    refine ⟨b, ?_, ?_, hb, ?_⟩
    · rw [← hb]
      exact (decidesValidity_of_equivalent hself h).verdict_eq hdecided hself
    · rw [← hb, normalize_eq_foldConstants h]
      exact (decidesValidity_of_equivalent hequiv hfold).verdict_eq hdecided hself
    · rw [← hb]
      exact (hdecided.verdict_eq (decidesValidity_isTautology hequiv.wellFormed_right) hequiv).symm

/-- `(A | ~T) & (~F | ~A)`, with a clause that is not valid and one that is. -/
def negatedConstants : Formula :=
  binary .and (binary .or (atom ⟨'A'⟩) (not (atom .verum)))
    (binary .or (not (atom .falsum)) (not (atom ⟨'A'⟩)))

theorem shortcut_agrees_clausewise_negatedConstants :
    negatedConstants.IsCnf ∧
      negatedConstants.normalize =
        .ok (binary .and (binary .or (atom ⟨'A'⟩) (atom .falsum))
          (binary .or (atom .verum) (not (atom ⟨'A'⟩)))) ∧
      (binary .or (atom ⟨'A'⟩) (not (atom .verum))).isTautologicalClause = .ok false ∧
      (binary .or (atom ⟨'A'⟩) (atom .falsum)).isTautologicalClause = .ok false ∧
      negatedConstants.isTautology = .ok false := by
  have hcnf : negatedConstants.IsCnf := by decide
  have hclause : (binary .or (atom ⟨'A'⟩) (not (atom .verum))).isTautologicalClause =
      .ok false := by rfl
  obtain ⟨hnormal, ⟨cs, ds, hcs, hds, -, -, hverdicts⟩, b, hstanding, -, hdecided, -⟩ :=
    shortcut_agrees_clausewise hcnf
  rw [clauses_eq hcnf] at hcs hstanding
  rw [clauses_eq (isCnf_foldConstants hcnf)] at hds
  cases hcs
  cases hds
  obtain ⟨v, hv, hfolded⟩ := hverdicts 0 (by decide) (by decide)
  cases hv.symm.trans hclause
  have hb : allTautological negatedConstants.spine = .ok false := by rfl
  cases hstanding.symm.trans hb
  exact ⟨hcnf, hnormal, hclause, hfolded, hdecided⟩

end Sentential.Formula
