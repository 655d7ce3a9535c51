import Sentential.Proofs.Clause
import Sentential.Proofs.Distribution
import Sentential.Proofs.NegationNormal
import Sentential.Validity

/-!
# The inspection of clauses decides validity

The decision never evaluates anything. It takes the clauses of a conjunctive
normal form and looks into the two literal sets of each, so the argument has
two halves that meet in the middle: what the inspection finds about the normal
form (`Clause.lean`), and what the normal form has to do with the formula it
was made from (`NegationNormal.lean` and `Distribution.lean`).

Soundness needs every clause. Refutation needs one, and then an assignment
that covers more than that clause: its falsifier is tabulated over all the free
atoms of the formula, and one false clause makes the whole conjunction false.
Which formula is inspected, the given one or its conversion, is left open in
`decidesValidity_of_equivalent`, so the shortcut for formulas that already have
the form costs nothing.
-/

namespace Sentential.Formula

theorem allTautological_eq {cs : List Formula} (h : ∀ c ∈ cs, c.IsClause) :
    allTautological cs = .ok (cs.all fun c => decide c.HasComplement) := by
  induction cs with
  | nil => rfl
  | cons c rest ih =>
      have hrest := ih fun d hd => h d (List.mem_cons_of_mem c hd)
      rw [allTautological, isTautologicalClause_eq (h c List.mem_cons_self), List.all_cons]
      by_cases hc : c.HasComplement
      · rw [decide_eq_true hc, Bool.true_and, ← hrest]
        rfl
      · rw [decide_eq_false hc, Bool.false_and]
        rfl

/-- A conjunctive normal form of valid clauses is true everywhere. -/
theorem value_of_spine_hasComplement {g : Formula} (hg : g.IsCnf)
    (h : ∀ c ∈ g.spine, c.HasComplement) (m : Assignment) : g.value m = true := by
  rw [value_eq_all_spine, List.all_eq_true]
  exact fun c hc => value_of_hasComplement (isClause_of_mem_spine hg hc) (h c hc) m

/-- One clause that is not valid makes it false, under the falsifier of that
clause over all the atoms. -/
theorem value_spine_falsifier {g c : Formula} (hg : g.IsCnf) (hc : c ∈ g.spine)
    (h : ¬ c.HasComplement) : g.value (c.falsifier g.atoms) = false := by
  rw [value_eq_all_spine, List.all_eq_false]
  have hfalse : c.value (c.falsifier g.atoms) = false :=
    value_falsifier (isClause_of_mem_spine hg hc) h fun a ha => mem_atoms_of_mem_spine hc ha
  exact ⟨c, hc, by rw [hfalse]; exact Bool.false_ne_true⟩

/-- A verdict is returned, and it says whether the formula is true under every
assignment that has an entry for each of its free atoms. -/
structure DecidesValidity (verdict : Except FormulaError Bool) (f : Formula) : Prop where
  returns : ∃ b, verdict = .ok b
  true_iff : verdict = .ok true ↔ ∀ m : Assignment, m.Covers f → f.evaluate m = .ok true
  false_iff : verdict = .ok false ↔ ∃ m : Assignment, m.Covers f ∧ f.evaluate m = .ok false

theorem decidesValidity_of_valid {f : Formula}
    (h : ∀ m : Assignment, m.Covers f → f.evaluate m = .ok true) :
    DecidesValidity (.ok true) f := by
  refine ⟨⟨true, rfl⟩, iff_of_true rfl h, iff_of_false (by simp) ?_⟩
  intro hrefuted
  obtain ⟨m, hm, hfalse⟩ := hrefuted
  rw [h m hm] at hfalse
  cases hfalse

theorem decidesValidity_of_refuted {f : Formula} {m : Assignment} (hm : m.Covers f)
    (h : f.evaluate m = .ok false) : DecidesValidity (.ok false) f := by
  refine ⟨⟨false, rfl⟩, iff_of_false (by simp) ?_, iff_of_true rfl ⟨m, hm, h⟩⟩
  intro hvalid
  rw [hvalid m hm] at h
  cases h

/-- Verdicts on equivalent formulas are the same, however they were reached. -/
theorem DecidesValidity.verdict_eq {f g : Formula} {v w : Except FormulaError Bool}
    (hv : DecidesValidity v f) (hw : DecidesValidity w g) (h : f.Equivalent g) : v = w := by
  have hvalid : (∀ m : Assignment, m.Covers f → f.evaluate m = .ok true) ↔
      ∀ m : Assignment, m.Covers g → g.evaluate m = .ok true := by
    simp only [Assignment.Covers, h.atoms_eq, h.evaluate_eq]
  have hiff : v = .ok true ↔ w = .ok true := hv.true_iff.trans (hvalid.trans hw.true_iff.symm)
  obtain ⟨b, rfl⟩ := hv.returns
  obtain ⟨c, rfl⟩ := hw.returns
  rw [Except.ok.injEq, Except.ok.injEq] at hiff
  rw [Bool.eq_iff_iff.2 hiff]

/-- The inspection of one formula decides the validity of every formula that is
equivalent to it. -/
theorem decidesValidity_of_equivalent {f g : Formula} (hfg : f.Equivalent g)
    (hg : g.IsCnf) : DecidesValidity (g.clauses >>= allTautological) f := by
  have hverdict : (g.clauses >>= allTautological) =
      .ok (g.spine.all fun c => decide c.HasComplement) := by
    rw [clauses_eq hg]
    exact allTautological_eq fun c hc => isClause_of_mem_spine hg hc
  have heval : ∀ m : Assignment, m.Covers f → f.evaluate m = .ok (g.value m) := by
    intro m hm
    rw [evaluate_of_covers hfg.wellFormed_left hm, hfg.value_eq]
  rw [hverdict]
  by_cases hall : ∀ c ∈ g.spine, c.HasComplement
  · have htrue : (g.spine.all fun c => decide c.HasComplement) = true := by
      simpa [List.all_eq_true] using hall
    rw [htrue]
    apply decidesValidity_of_valid
    intro m hm
    rw [heval m hm, value_of_spine_hasComplement hg hall m]
  · have hfalse : (g.spine.all fun c => decide c.HasComplement) = false := by
      rw [List.all_eq_false]
      simpa using hall
    obtain ⟨c, hc, hcomp⟩ : ∃ c ∈ g.spine, ¬ c.HasComplement := by simpa using hall
    have hcovers : (c.falsifier g.atoms).Covers f := by
      rw [← hfg.atoms_eq]
      exact Assignment.covers_tabulate f _
    rw [hfalse]
    apply decidesValidity_of_refuted hcovers
    rw [heval _ hcovers, value_spine_falsifier hg hc hcomp]

/-! ## The two routes -/

theorem normalize_eq {f : Formula} (h : f.WellFormed) :
    f.normalize = .ok (f.pushNegation true).distribute := by
  rw [normalize, negationNormal_eq h]
  exact conjunctiveNormal_eq (isNnf_pushNegation h true)

theorem decidesValidity_isTautology {f : Formula} (h : f.WellFormed) :
    DecidesValidity f.isTautology f := by
  rw [isTautology, if_pos h]
  by_cases hc : f.IsCnf
  · rw [if_pos hc]
    exact decidesValidity_of_equivalent (.refl h) hc
  · have hn : (f.pushNegation true).IsNnf := isNnf_pushNegation h true
    rw [if_neg hc, normalize_eq h]
    exact decidesValidity_of_equivalent
      ((equivalent_pushNegation h).trans (equivalent_distribute hn)) (isCnf_distribute hn)

/-- For every well-formed formula the inspection decides validity: as the
decision runs, on the formula as it stands if that has conjunctive normal form,
and on its conversion whether it has that form or not. -/
theorem isTautology_decidesValidity {f : Formula} (h : f.WellFormed) :
    DecidesValidity f.isTautology f ∧
      (f.IsCnf → DecidesValidity (f.clauses >>= allTautological) f) ∧
      DecidesValidity (do allTautological (← (← f.normalize).clauses)) f := by
  have hn : (f.pushNegation true).IsNnf := isNnf_pushNegation h true
  have hstanding : f.IsCnf → DecidesValidity (f.clauses >>= allTautological) f :=
    decidesValidity_of_equivalent (.refl h)
  have hconverted : DecidesValidity (do allTautological (← (← f.normalize).clauses)) f := by
    rw [normalize_eq h]
    exact decidesValidity_of_equivalent
      ((equivalent_pushNegation h).trans (equivalent_distribute hn)) (isCnf_distribute hn)
  refine ⟨?_, hstanding, hconverted⟩
  rw [isTautology, if_pos h]
  by_cases hc : f.IsCnf
  · rw [if_pos hc]
    exact hstanding hc
  · rw [if_neg hc]
    exact hconverted

/-- `((A -> F) -> A) -> A`. -/
def consequentiaMirabilis : Formula :=
  binary .imply
    (binary .imply (binary .imply (atom ⟨'A'⟩) (atom .falsum)) (atom ⟨'A'⟩)) (atom ⟨'A'⟩)

theorem consequentiaMirabilis_valid :
    consequentiaMirabilis.WellFormed ∧ consequentiaMirabilis.isTautology = .ok true ∧
      ∀ m : Assignment, m.Covers consequentiaMirabilis →
        consequentiaMirabilis.evaluate m = .ok true := by
  have hw : consequentiaMirabilis.WellFormed := by decide
  have hvalid : ∀ m : Assignment, m.Covers consequentiaMirabilis →
      consequentiaMirabilis.evaluate m = .ok true := by
    intro m hm
    rw [evaluate_of_covers hw hm]
    simp only [consequentiaMirabilis, value, Connective.apply, Atom.value_falsum]
    cases Atom.value m ⟨'A'⟩ <;> rfl
  exact ⟨hw, (isTautology_decidesValidity hw).1.true_iff.2 hvalid, hvalid⟩

end Sentential.Formula
