import Sentential.Atom.Set
import Sentential.Connective

/-!
# Formulas

A formula is an atom, a negation, or two formulas under a connective. The
type admits atoms outside `A` to `Z`; a formula without any is well-formed,
and the operations that need it say so in their results.
-/

namespace Sentential

inductive Formula where
  | atom (a : Atom)
  | not (f : Formula)
  | binary (c : Connective) (l r : Formula)
deriving DecidableEq

namespace Formula

/-- Every atom is a letter. -/
def WellFormed : Formula → Prop
  | atom a => a.IsLetter
  | not f => f.WellFormed
  | binary _ l r => l.WellFormed ∧ r.WellFormed

instance decidableWellFormed : DecidablePred WellFormed
  | atom a => inferInstanceAs (Decidable a.IsLetter)
  | not f => decidableWellFormed f
  | binary _ l r =>
    have := decidableWellFormed l
    have := decidableWellFormed r
    inferInstanceAs (Decidable (l.WellFormed ∧ r.WellFormed))

/-- The free atoms: those that occur, the constants left out. -/
def atoms : Formula → AtomSet
  | atom a => if a.IsConstant then ∅ else AtomSet.insert a ∅
  | not f => f.atoms
  | binary _ l r => l.atoms ∪ r.atoms

theorem mem_atoms_atom {a b : Atom} : b ∈ (atom a).atoms ↔ b = a ∧ ¬ a.IsConstant := by
  unfold atoms
  split
  · next h => exact ⟨fun hb => absurd hb (AtomSet.not_mem_empty b), fun hb => absurd h hb.2⟩
  · next h =>
      rw [AtomSet.mem_insert]
      exact ⟨fun hb => ⟨hb.resolve_right (AtomSet.not_mem_empty b), h⟩, fun hb => .inl hb.1⟩

theorem mem_atoms_not {f : Formula} {b : Atom} : b ∈ (not f).atoms ↔ b ∈ f.atoms := Iff.rfl

theorem mem_atoms_binary {c : Connective} {l r : Formula} {b : Atom} :
    b ∈ (binary c l r).atoms ↔ b ∈ l.atoms ∨ b ∈ r.atoms := AtomSet.mem_union

end Formula

end Sentential
