import Sentential.Formula.Shape

/-!
# Contexts and parts

A context is a formula with one place left open. Filling it puts a formula into
that place, and a formula is part of another if some context makes the one out
of the other. So a law about a rewriting anywhere inside a formula is an
induction on the context: one case for the open place, and one for each way it
can lie below a negation or a connective.
-/

namespace Sentential

/-- A formula with a hole. -/
inductive Context where
  | hole
  | not (k : Context)
  | left (c : Connective) (k : Context) (r : Formula)
  | right (c : Connective) (l : Formula) (k : Context)

namespace Context

/-- The formula with `f` in the place of the hole. -/
def fill : Context → Formula → Formula
  | hole, f => f
  | not k, f => .not (k.fill f)
  | left c k r, f => .binary c (k.fill f) r
  | right c l k, f => .binary c l (k.fill f)

/-- The formulas beside the way to the hole are all like that. -/
def Beside (p : Formula → Prop) : Context → Prop
  | hole => True
  | not k => k.Beside p
  | left _ k r => k.Beside p ∧ p r
  | right _ l k => p l ∧ k.Beside p

/-- There are only conjunctions and disjunctions on the way to the hole. -/
def AndOr : Context → Prop
  | hole => True
  | not _ => False
  | left c k _ => (c = .and ∨ c = .or) ∧ k.AndOr
  | right c _ k => (c = .and ∨ c = .or) ∧ k.AndOr

theorem wellFormed_fill {k : Context} {f : Formula} :
    (k.fill f).WellFormed ↔ k.Beside Formula.WellFormed ∧ f.WellFormed := by
  induction k with
  | hole => exact (and_iff_right trivial).symm
  | not k ih => exact ih
  | left c k r ih => rw [fill, Formula.WellFormed, ih, Beside, and_right_comm]
  | right c l k ih => rw [fill, Formula.WellFormed, ih, Beside, and_assoc]

theorem isNnf_fill {k : Context} {f : Formula} (hk : k.AndOr) :
    (k.fill f).IsNnf ↔ k.Beside Formula.IsNnf ∧ f.IsNnf := by
  induction k with
  | hole => exact (and_iff_right trivial).symm
  | not k _ => exact False.elim hk
  | left c k r ih =>
      rw [fill, Formula.IsNnf, ih hk.2, and_iff_right hk.1, Beside, and_right_comm]
  | right c l k ih =>
      rw [fill, Formula.IsNnf, ih hk.2, and_iff_right hk.1, Beside, and_assoc]

end Context

namespace Formula

/-- `g` is part of `f`, or all of it. -/
def Occurs (g f : Formula) : Prop := ∃ k : Context, k.fill g = f

theorem occurs_atom_iff {g : Formula} {a : Atom} : g.Occurs (atom a) ↔ g = atom a := by
  constructor
  · rintro ⟨k, hk⟩
    cases k with
    | hole => exact hk
    | not _ | left _ _ _ | right _ _ _ => cases hk
  · rintro rfl
    exact ⟨.hole, rfl⟩

theorem occurs_not_iff {g f : Formula} : g.Occurs (not f) ↔ g = not f ∨ g.Occurs f := by
  constructor
  · rintro ⟨k, hk⟩
    cases k with
    | hole => exact .inl hk
    | not k =>
        cases hk
        exact .inr ⟨k, rfl⟩
    | left _ _ _ | right _ _ _ => cases hk
  · rintro (rfl | ⟨k, rfl⟩)
    · exact ⟨.hole, rfl⟩
    · exact ⟨.not k, rfl⟩

theorem occurs_binary_iff {g l r : Formula} {c : Connective} :
    g.Occurs (binary c l r) ↔ g = binary c l r ∨ g.Occurs l ∨ g.Occurs r := by
  constructor
  · rintro ⟨k, hk⟩
    cases k with
    | hole => exact .inl hk
    | not _ => cases hk
    | left c k r =>
        cases hk
        exact .inr (.inl ⟨k, rfl⟩)
    | right c l k =>
        cases hk
        exact .inr (.inr ⟨k, rfl⟩)
  · rintro (rfl | ⟨k, rfl⟩ | ⟨k, rfl⟩)
    · exact ⟨.hole, rfl⟩
    · exact ⟨.left c k r, rfl⟩
    · exact ⟨.right c l k, rfl⟩

theorem Occurs.refl (f : Formula) : f.Occurs f := ⟨.hole, rfl⟩

/-- What is part of a part is part of the whole. -/
theorem Occurs.trans {f g h : Formula} (hfg : f.Occurs g) (hgh : g.Occurs h) : f.Occurs h := by
  obtain ⟨k, rfl⟩ := hgh
  induction k with
  | hole => exact hfg
  | not k ih => exact occurs_not_iff.2 (.inr ih)
  | left c k r ih => exact occurs_binary_iff.2 (.inr (.inl ih))
  | right c l k ih => exact occurs_binary_iff.2 (.inr (.inr ih))

end Formula

end Sentential
