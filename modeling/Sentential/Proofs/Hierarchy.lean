import Sentential.Proofs.Context
import Sentential.Proofs.Shape

/-!
# The shapes by what occurs in them

Each shape is a recursion that looks at one node at a time, and none of them asks
about a node what the others ask: the conjunctive normal form goes down the
conjunctions and leaves the rest to the test for clauses, and a literal may have any
symbol. Seen from outside they are one scale. A formula is in negation normal form if
it is well-formed and certain nodes do not occur in it, wherever that would be; it is a
clause if there is no conjunction besides; and it is in conjunctive normal form if there
is none below a disjunction.

The last of these is where what occurs has to be followed through two levels. Inside the
conjunctions at the top every disjunction is tested as a clause, and a disjunction
further down is part of one that was, so it cannot have a conjunction that the one above
does not have (`Occurs.trans`).
-/

namespace Sentential.Formula

/-! ## Connectives that occur -/

/-- Two parts are joined by the connective, anywhere in the formula. -/
def HasConnective (f : Formula) (c : Connective) : Prop := ∃ l r, (binary c l r).Occurs f

theorem not_hasConnective_atom (a : Atom) (c : Connective) : ¬ (atom a).HasConnective c := by
  intro h
  obtain ⟨l, r, hlr⟩ := h
  cases occurs_atom_iff.1 hlr

theorem hasConnective_not_iff {f : Formula} {c : Connective} :
    (not f).HasConnective c ↔ f.HasConnective c := by
  simp only [HasConnective, occurs_not_iff, reduceCtorEq, false_or]

theorem hasConnective_binary_iff {l r : Formula} {c d : Connective} :
    (binary d l r).HasConnective c ↔ c = d ∨ l.HasConnective c ∨ r.HasConnective c := by
  refine ⟨fun h => ?_, fun h => ?_⟩
  · obtain ⟨x, y, hxy⟩ := h
    rcases occurs_binary_iff.1 hxy with heq | hl | hr
    · cases heq
      exact .inl rfl
    · exact .inr (.inl ⟨x, y, hl⟩)
    · exact .inr (.inr ⟨x, y, hr⟩)
  · obtain rfl | ⟨x, y, hl⟩ | ⟨x, y, hr⟩ := h
    · exact ⟨l, r, .refl _⟩
    · exact ⟨x, y, occurs_binary_iff.2 (.inr (.inl hl))⟩
    · exact ⟨x, y, occurs_binary_iff.2 (.inr (.inr hr))⟩

theorem HasConnective.of_occurs {f g : Formula} {c : Connective} (h : g.HasConnective c)
    (hg : g.Occurs f) : f.HasConnective c := by
  obtain ⟨l, r, hlr⟩ := h
  exact ⟨l, r, hlr.trans hg⟩

/-- Negation stands directly above atoms only. -/
def NegatesAtoms (f : Formula) : Prop := ∀ g, (not g).Occurs f → g.IsAtom

theorem negatesAtoms_atom (a : Atom) : (atom a).NegatesAtoms := by
  intro g hg
  cases occurs_atom_iff.1 hg

theorem negatesAtoms_not_iff {f : Formula} : (not f).NegatesAtoms ↔ f.IsAtom := by
  refine ⟨fun h => h f (.refl _), fun hf => ?_⟩
  · intro g hg
    rcases occurs_not_iff.1 hg with heq | hg
    · cases heq
      exact hf
    · cases f with
      | atom a => exact negatesAtoms_atom a g hg
      | not _ | binary _ _ _ => exact False.elim hf

theorem negatesAtoms_binary_iff {c : Connective} {l r : Formula} :
    (binary c l r).NegatesAtoms ↔ l.NegatesAtoms ∧ r.NegatesAtoms := by
  simp only [NegatesAtoms, occurs_binary_iff, reduceCtorEq, false_or, or_imp, forall_and]

/-- No conjunction is below a disjunction. -/
def SplitsNoDisjunction (f : Formula) : Prop :=
  ∀ l r, (binary .or l r).Occurs f → ¬ (binary .or l r).HasConnective .and

/-! ## One node at a time -/

/-- A literal may have any symbol, and that is all that keeps it from being a clause. -/
theorem IsLiteral.isClause {f : Formula} (h : f.IsLiteral) (hf : f.WellFormed) : f.IsClause := by
  cases f with
  | atom a => exact hf
  | not g => exact ⟨h, hf⟩
  | binary c l r => exact False.elim h

theorem isNnf_iff {f : Formula} : f.IsNnf ↔ f.WellFormed ∧
    (f.IsLiteral ∨ ∃ c l r, f = binary c l r ∧ (c = .and ∨ c = .or) ∧ l.IsNnf ∧ r.IsNnf) := by
  refine ⟨fun h => ?_, fun h => ?_⟩
  · refine ⟨h.wellFormed, ?_⟩
    cases f with
    | atom a => exact .inl trivial
    | not g => exact .inl h.1
    | binary c l r => exact .inr ⟨c, l, r, rfl, h⟩
  · obtain ⟨hf, hliteral | ⟨c, l, r, rfl, hnode⟩⟩ := h
    · exact (hliteral.isClause hf).isNnf
    · exact hnode

theorem isClause_iff {f : Formula} : f.IsClause ↔ f.WellFormed ∧
    (f.IsLiteral ∨ ∃ l r, f = binary .or l r ∧ l.IsClause ∧ r.IsClause) := by
  refine ⟨fun h => ?_, fun h => ?_⟩
  · refine ⟨h.isNnf.wellFormed, ?_⟩
    cases f with
    | atom a => exact .inl trivial
    | not g => exact .inl h.1
    | binary c l r =>
        obtain ⟨rfl, hl, hr⟩ := h
        exact .inr ⟨l, r, rfl, hl, hr⟩
  · obtain ⟨hf, hliteral | ⟨l, r, rfl, hl, hr⟩⟩ := h
    · exact hliteral.isClause hf
    · exact ⟨rfl, hl, hr⟩

theorem isCnf_iff {f : Formula} : f.IsCnf ↔
    f.IsClause ∨ ∃ l r, f = binary .and l r ∧ l.IsCnf ∧ r.IsCnf := by
  refine ⟨fun h => ?_, fun h => ?_⟩
  · by_cases hf : ∃ l r, f = binary .and l r
    · obtain ⟨l, r, rfl⟩ := hf
      exact .inr ⟨l, r, rfl, h⟩
    · exact .inl (h.isClause fun l r heq => hf ⟨l, r, heq⟩)
  · obtain hclause | ⟨l, r, rfl, hsides⟩ := h
    · exact hclause.isCnf
    · exact hsides

/-! ## All nodes at once -/

theorem isNnf_iff_occurs {f : Formula} : f.IsNnf ↔
    f.WellFormed ∧ ¬ f.HasConnective .imply ∧ ¬ f.HasConnective .iff ∧ f.NegatesAtoms := by
  induction f with
  | atom a =>
      have hnone : ∀ c, ¬ (atom a).HasConnective c := not_hasConnective_atom a
      exact ⟨fun h => ⟨h, hnone _, hnone _, negatesAtoms_atom a⟩, And.left⟩
  | not f _ =>
      simp only [hasConnective_not_iff, negatesAtoms_not_iff]
      refine ⟨fun h => ?_, fun h => ⟨h.2.2.2, h.1⟩⟩
      · obtain ⟨hf, hwell⟩ := h
        cases f with
        | atom a => exact ⟨hwell, not_hasConnective_atom a _, not_hasConnective_atom a _, hf⟩
        | not _ | binary _ _ _ => exact False.elim hf
  | binary c l r ihl ihr =>
      have hc : c = .and ∨ c = .or ↔ .imply ≠ c ∧ .iff ≠ c := by cases c <;> decide
      simp only [IsNnf, WellFormed, hc, ihl, ihr, hasConnective_binary_iff,
        negatesAtoms_binary_iff, not_or]
      refine ⟨fun h => ?_, fun h => ?_⟩
      · obtain ⟨⟨himply, hiff⟩, ⟨hl, hlimply, hliff, hlnot⟩, hr, hrimply, hriff, hrnot⟩ := h
        exact ⟨⟨hl, hr⟩, ⟨himply, hlimply, hrimply⟩, ⟨hiff, hliff, hriff⟩, hlnot, hrnot⟩
      · obtain ⟨⟨hl, hr⟩, ⟨himply, hlimply, hrimply⟩, ⟨hiff, hliff, hriff⟩, hlnot, hrnot⟩ := h
        exact ⟨⟨himply, hiff⟩, ⟨hl, hlimply, hliff, hlnot⟩, hr, hrimply, hriff, hrnot⟩

/-- Of the nodes that may occur in negation normal form, conjunctions are those that a
clause may not have. -/
theorem isClause_iff_occurs {f : Formula} : f.IsClause ↔ f.IsNnf ∧ ¬ f.HasConnective .and := by
  induction f with
  | atom a => exact (and_iff_left (not_hasConnective_atom a _)).symm
  | not f _ =>
      have hnone : f.IsAtom → ¬ f.HasConnective .and := by
        intro hf
        cases f with
        | atom a => exact not_hasConnective_atom a _
        | not _ | binary _ _ _ => exact False.elim hf
      rw [hasConnective_not_iff]
      exact ⟨fun h => ⟨h, hnone h.1⟩, And.left⟩
  | binary c l r ihl ihr =>
      simp only [IsClause, IsNnf, ihl, ihr, hasConnective_binary_iff, not_or]
      refine ⟨fun h => ?_, fun h => ?_⟩
      · obtain ⟨rfl, ⟨hl, hland⟩, hr, hrand⟩ := h
        exact ⟨⟨.inr rfl, hl, hr⟩, by decide, hland, hrand⟩
      · obtain ⟨⟨hc, hl, hr⟩, hand, hland, hrand⟩ := h
        exact ⟨hc.resolve_left fun heq => hand heq.symm, ⟨hl, hland⟩, hr, hrand⟩

/-- Below a disjunction nothing can be said of a conjunction that could not be said of the
disjunction above. -/
theorem isCnf_iff_occurs {f : Formula} : f.IsCnf ↔ f.IsNnf ∧ f.SplitsNoDisjunction := by
  refine ⟨fun h => ⟨h.isNnf, ?_⟩, fun h => ?_⟩
  · intro x y hor hand
    induction f with
    | atom a => cases occurs_atom_iff.1 hor
    | not f _ => exact (isClause_iff_occurs.1 h).2 (hand.of_occurs hor)
    | binary c l r ihl ihr =>
        obtain hclause | ⟨a, b, heq, ha, hb⟩ := isCnf_iff.1 h
        · exact (isClause_iff_occurs.1 hclause).2 (hand.of_occurs hor)
        · cases heq
          rcases occurs_binary_iff.1 hor with heq | hor | hor
          · cases heq
          · exact ihl ha hor
          · exact ihr hb hor
  · obtain ⟨hnnf, hsplit⟩ := h
    induction f with
    | atom a => exact hnnf
    | not f _ => exact hnnf
    | binary c l r ihl ihr =>
        obtain ⟨hc, hl, hr⟩ := hnnf
        rcases hc with rfl | rfl
        · exact ⟨ihl hl fun x y hor => hsplit x y (occurs_binary_iff.2 (.inr (.inl hor))),
            ihr hr fun x y hor => hsplit x y (occurs_binary_iff.2 (.inr (.inr hor)))⟩
        · exact isClause_iff_occurs.2 ⟨⟨.inr rfl, hl, hr⟩, hsplit l r (.refl _)⟩

/-- Each shape is what it says of the nodes, and what it says of one node and the shapes
below: a formula in negation normal form is well-formed, and a literal or joined by a
conjunction or a disjunction; a clause is well-formed, and a literal or a disjunction of
clauses; and a conjunctive normal form is a clause or a conjunction. So from one shape to
the next there is always more that may occur, also in formulas that are not well-formed:
those have no shape but that of a literal. -/
theorem shapes_by_occurrence :
    (∀ f : Formula, f.IsNnf ↔ f.WellFormed ∧ ¬ f.HasConnective .imply ∧
      ¬ f.HasConnective .iff ∧ ∀ g, (not g).Occurs f → g.IsAtom) ∧
    (∀ f : Formula, f.IsClause ↔ f.IsNnf ∧ ¬ f.HasConnective .and) ∧
    (∀ f : Formula, f.IsCnf ↔ f.IsNnf ∧
      ∀ l r, (binary .or l r).Occurs f → ¬ (binary .or l r).HasConnective .and) ∧
    (∀ f : Formula, (f.IsClause → f.IsCnf) ∧ (f.IsCnf → f.IsNnf) ∧ (f.IsNnf → f.WellFormed) ∧
      (f.WellFormed → f.IsLiteral → f.IsClause)) ∧
    (∀ f : Formula, f.IsNnf ↔ f.WellFormed ∧
      (f.IsLiteral ∨ ∃ c l r, f = binary c l r ∧ (c = .and ∨ c = .or) ∧ l.IsNnf ∧ r.IsNnf)) ∧
    (∀ f : Formula, f.IsClause ↔ f.WellFormed ∧
      (f.IsLiteral ∨ ∃ l r, f = binary .or l r ∧ l.IsClause ∧ r.IsClause)) ∧
    ∀ f : Formula, f.IsCnf ↔ f.IsClause ∨ ∃ l r, f = binary .and l r ∧ l.IsCnf ∧ r.IsCnf := by
  refine ⟨fun _ => isNnf_iff_occurs, fun _ => isClause_iff_occurs, fun _ => isCnf_iff_occurs, ?_,
    fun _ => isNnf_iff, fun _ => isClause_iff, fun _ => isCnf_iff⟩
  intro f
  exact ⟨IsClause.isCnf, IsCnf.isNnf, IsNnf.wellFormed, fun hf h => h.isClause hf⟩

/-- `~A` has all the shapes. `C & ~A` is no clause, `(A & B) | C` is not in conjunctive
normal form either, and `~a` with a small letter is a literal and nothing else. -/
theorem shapes_by_occurrence_apart :
    ((not (atom ⟨'A'⟩)).WellFormed ∧ (not (atom ⟨'A'⟩)).IsLiteral ∧
      (not (atom ⟨'A'⟩)).IsClause ∧ (not (atom ⟨'A'⟩)).IsCnf ∧ (not (atom ⟨'A'⟩)).IsNnf) ∧
    ((binary .and (atom ⟨'C'⟩) (not (atom ⟨'A'⟩))).IsCnf ∧
      ¬ (binary .and (atom ⟨'C'⟩) (not (atom ⟨'A'⟩))).IsClause) ∧
    ((binary .or (binary .and (atom ⟨'A'⟩) (atom ⟨'B'⟩)) (atom ⟨'C'⟩)).IsNnf ∧
      ¬ (binary .or (binary .and (atom ⟨'A'⟩) (atom ⟨'B'⟩)) (atom ⟨'C'⟩)).IsCnf) ∧
    (not (atom ⟨'a'⟩)).IsLiteral ∧ ¬ (not (atom ⟨'a'⟩)).IsNnf := by
  obtain ⟨hnnf, hclause, hcnf, hchain, -⟩ := shapes_by_occurrence
  refine ⟨?_, ⟨by decide, ?_⟩, ⟨by decide, ?_⟩, trivial, ?_⟩
  · have hwell : (not (atom ⟨'A'⟩)).WellFormed := by decide
    have hliteral : (not (atom ⟨'A'⟩)).IsLiteral := trivial
    obtain ⟨htoCnf, htoNnf, -, htoClause⟩ := hchain (not (atom ⟨'A'⟩))
    have hc := htoClause hwell hliteral
    exact ⟨hwell, hliteral, hc, htoCnf hc, htoNnf (htoCnf hc)⟩
  · intro h
    exact ((hclause _).1 h).2 ⟨_, _, .refl _⟩
  · intro h
    have hand : (binary .or (binary .and (atom ⟨'A'⟩) (atom ⟨'B'⟩))
        (atom ⟨'C'⟩)).HasConnective .and :=
      ⟨atom ⟨'A'⟩, atom ⟨'B'⟩, .left .or .hole (atom ⟨'C'⟩), rfl⟩
    exact ((hcnf _).1 h).2 _ _ (.refl _) hand
  · intro h
    exact absurd ((hnnf _).1 h).1 (by decide)

end Sentential.Formula
