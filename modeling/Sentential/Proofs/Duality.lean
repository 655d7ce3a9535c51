import Sentential.Literal
import Sentential.Proofs.NegationNormal

/-!
# Negation is the De Morgan dual

The normal form of a negation is the normal form of the formula with everything
exchanged: conjunction and disjunction, each variable and its negation, and the
two constants. Nothing changes places, although a conditional is rewritten by a
clause of its own under either sign, and a biconditional by two conditionals.
`Dual` says the exchange by itself, one constructor for each kind of node, and
has none for a negated constant, which no normal form contains.

Duality exchanges the two sets of literals as well, up to how they speak of the
constants. `T` is asserted and `F` is denied, and there is nothing to deny about
`T` nor to assert about `F`. So what a normal form says about the constants stands
in the one set under the name of one constant and comes back in the other set
under the name of the other.
-/

namespace Sentential

namespace AtomSet

/-- The set with `new` in the place of `old`. -/
def replace (old new : Atom) (s : AtomSet) : AtomSet :=
  ofList (s.toList.map fun a => if a = old then new else a)

theorem replace_ofList (old new : Atom) (as : List Atom) :
    (ofList as).replace old new = ofList (as.map fun a => if a = old then new else a) := by
  refine ext fun a => ?_
  simp only [replace, mem_ofList, List.mem_map, mem_toList]

end AtomSet

namespace Formula

/-- The same tree with everything exchanged. -/
inductive Dual : Formula → Formula → Prop
  | verum : Dual (atom .verum) (atom .falsum)
  | falsum : Dual (atom .falsum) (atom .verum)
  | positive {a : Atom} : ¬ a.IsConstant → Dual (atom a) (not (atom a))
  | negative {a : Atom} : ¬ a.IsConstant → Dual (not (atom a)) (atom a)
  | and {l r l' r' : Formula} : Dual l l' → Dual r r' →
      Dual (binary .and l r) (binary .or l' r')
  | or {l r l' r' : Formula} : Dual l l' → Dual r r' →
      Dual (binary .or l r) (binary .and l' r')

theorem Dual.symm {f g : Formula} (h : Dual f g) : Dual g f := by
  induction h with
  | verum => exact .falsum
  | falsum => exact .verum
  | positive ha => exact .negative ha
  | negative ha => exact .positive ha
  | and _ _ ihl ihr => exact .or ihl ihr
  | or _ _ ihl ihr => exact .and ihl ihr

theorem dual_atom_iff {a : Atom} {g : Formula} : Dual (atom a) g ↔ g = a.negation := by
  constructor
  · intro h
    cases h with
    | verum => rfl
    | falsum => rfl
    | positive ha => exact (Atom.negation_eq_not ha).symm
  · rintro rfl
    rcases a.negation_cases with rfl | rfl | ⟨ha, h⟩
    · exact .verum
    · exact .falsum
    · exact h ▸ .positive ha

/-- There is one way to exchange everything. -/
theorem Dual.unique {f g g' : Formula} (h : Dual f g) (h' : Dual f g') : g = g' := by
  induction f generalizing g g' with
  | atom a => rw [dual_atom_iff.1 h, dual_atom_iff.1 h']
  | not f _ =>
      cases h
      cases h'
      rfl
  | binary c l r ihl ihr =>
      cases h with
      | and hl hr =>
          cases h' with
          | and hl' hr' => rw [ihl hl hl', ihr hr hr']
      | or hl hr =>
          cases h' with
          | or hl' hr' => rw [ihl hl hl', ihr hr hr']

theorem dual_pushNegation (sign : Bool) (f : Formula) :
    Dual (f.pushNegation sign) (f.pushNegation !sign) := by
  induction f generalizing sign with
  | atom a =>
      cases sign with
      | true => exact dual_atom_iff.2 rfl
      | false => exact (dual_atom_iff.2 rfl).symm
  | not f ih => exact ih !sign
  | binary c l r ihl ihr =>
      cases c with
      | and =>
          cases sign with
          | true => exact .and (ihl true) (ihr true)
          | false => exact .or (ihl false) (ihr false)
      | or =>
          cases sign with
          | true => exact .or (ihl true) (ihr true)
          | false => exact .and (ihl false) (ihr false)
      | imply =>
          cases sign with
          | true => exact .or (ihl false) (ihr true)
          | false => exact .and (ihl true) (ihr false)
      | iff =>
          cases sign with
          | true => exact .and (.or (ihl false) (ihr true)) (.or (ihr false) (ihl true))
          | false => exact .or (.and (ihl true) (ihr false)) (.and (ihr true) (ihl false))

/-! ## The sets of literals -/

/-- What the dual asserts is what the formula denies. -/
theorem Dual.filterMap_asserted? {f g : Formula} (h : Dual f g) :
    g.literals.filterMap Literal.asserted? =
      (f.literals.filterMap Literal.denied?).map fun a => if a = .falsum then .verum else a := by
  induction h with
  | verum => rfl
  | falsum => rfl
  | @positive a ha | @negative a ha =>
      have hF : a ≠ .falsum := fun h => ha (.inr h)
      simp [literals, Literal.asserted?, Literal.denied?, hF]
  | and _ _ ihl ihr | or _ _ ihl ihr =>
      rw [literals, literals, List.filterMap_append, List.filterMap_append, List.map_append,
        ihl, ihr]

/-- What the dual denies is what the formula asserts. -/
theorem Dual.filterMap_denied? {f g : Formula} (h : Dual f g) :
    g.literals.filterMap Literal.denied? =
      (f.literals.filterMap Literal.asserted?).map fun a => if a = .verum then .falsum else a := by
  induction h with
  | verum => rfl
  | falsum => rfl
  | @positive a ha | @negative a ha =>
      have hT : a ≠ .verum := fun h => ha (.inl h)
      have hF : a ≠ .falsum := fun h => ha (.inr h)
      simp [literals, Literal.asserted?, Literal.denied?, hT, hF]
  | and _ _ ihl ihr | or _ _ ihl ihr =>
      rw [literals, literals, List.filterMap_append, List.filterMap_append, List.map_append,
        ihl, ihr]

theorem Dual.positiveSet_eq {f g : Formula} (h : Dual f g) :
    g.positiveSet = f.negativeSet.replace .falsum .verum := by
  rw [positiveSet, negativeSet, AtomSet.replace_ofList, h.filterMap_asserted?]

theorem Dual.negativeSet_eq {f g : Formula} (h : Dual f g) :
    g.negativeSet = f.positiveSet.replace .verum .falsum := by
  rw [positiveSet, negativeSet, AtomSet.replace_ofList, h.filterMap_denied?]

/-- The negation normal form of a negation is the dual of that of the formula,
and there is no other. Its positive set is the negative set of the formula's with
`T` in the place of `F`, and its negative set is the positive set with `F` in the
place of `T`. -/
theorem negation_dualizes {f : Formula} (h : f.WellFormed) : ∃ n d,
    f.negationNormal = .ok n ∧ (not f).negationNormal = .ok d ∧ (∀ e, Dual n e ↔ e = d) ∧
    ∃ ps ns, n.positiveLiterals = .ok ps ∧ n.negativeLiterals = .ok ns ∧
      d.positiveLiterals = .ok (ns.replace .falsum .verum) ∧
      d.negativeLiterals = .ok (ps.replace .verum .falsum) := by
  have hn : (f.pushNegation true).IsNnf := isNnf_pushNegation h true
  have hd : (f.pushNegation false).IsNnf := isNnf_pushNegation h false
  have hdual : Dual (f.pushNegation true) (f.pushNegation false) := dual_pushNegation true f
  refine ⟨f.pushNegation true, f.pushNegation false, negationNormal_eq h,
    negationNormal_eq (f := not f) h, fun e => ⟨fun he => he.unique hdual, fun he => he ▸ hdual⟩,
    _, _, if_pos hn, if_pos hn, ?_, ?_⟩
  · rw [positiveLiterals, if_pos hd, hdual.positiveSet_eq]
  · rw [negativeLiterals, if_pos hd, hdual.negativeSet_eq]

/-- `A -> F` and its negation: what is denied of `A` and of `F` in the one is
asserted of `A` and of `T` in the other. -/
theorem negation_dualizes_absurdity :
    (binary .imply (atom ⟨'A'⟩) (atom .falsum)).negationNormal =
      .ok (binary .or (not (atom ⟨'A'⟩)) (atom .falsum)) ∧
    (not (binary .imply (atom ⟨'A'⟩) (atom .falsum))).negationNormal =
      .ok (binary .and (atom ⟨'A'⟩) (atom .verum)) ∧
    (binary .or (not (atom ⟨'A'⟩)) (atom .falsum)).negativeLiterals =
      .ok (.ofList [⟨'A'⟩, .falsum]) ∧
    (binary .and (atom ⟨'A'⟩) (atom .verum)).positiveLiterals =
      .ok (.ofList [⟨'A'⟩, .verum]) := by
  have hn : (binary .imply (atom ⟨'A'⟩) (atom .falsum)).negationNormal =
      .ok (binary .or (not (atom ⟨'A'⟩)) (atom .falsum)) := by rfl
  have hns : (binary .or (not (atom ⟨'A'⟩)) (atom .falsum)).negativeLiterals =
      .ok (.ofList [⟨'A'⟩, .falsum]) := by rfl
  obtain ⟨n, d, hn', hd, hdual, ps, ns, -, hns', hpos, -⟩ :=
    negation_dualizes (f := binary .imply (atom ⟨'A'⟩) (atom .falsum)) (by decide)
  cases hn'.symm.trans hn
  cases hns'.symm.trans hns
  obtain rfl : binary .and (atom ⟨'A'⟩) (atom .verum) = d :=
    (hdual _).1 (.or (.negative (by decide)) .falsum)
  exact ⟨hn, hd, hns, hpos⟩

end Formula

end Sentential
