import Sentential.Proofs.Extensionality
import Sentential.Proofs.RoundTrip
import Sentential.Proofs.Spelling

/-!
# The free atoms are the letters

The free atoms of a formula are collected over its tree. A text shows them too, without a
tree: they are its letters, except the two constants. In the printed form the letters are
all capitals, and a look at its parts is enough, because a sign has none. In a text that
comes from outside they may be small, and there it is on the way to the tree that one could
be lost or made up.

None is. A letter is no blank and belongs to no arrow, so trimming and joining pass over
it (`letter_mem_scan_iff`). A text is refused as a whole unless each of its letters is a
token. And the tree of a phrase has an atom for each atom among its tokens
(`Derives.mem_atoms_iff`): no rule of the grammar leaves one out, so it does not matter how
the reader came by the tree.
-/

namespace Sentential

/-! ## Letters and atoms -/

namespace Text

end Text

namespace Lexeme

end Lexeme

/-! ## From the text to the tree -/

namespace Token

end Token

namespace Formula

/-- No rule of the grammar drops an atom or makes one up. -/
theorem Derives.mem_atoms_iff {s : Stratum} {ts : List Token} {f : Formula} (h : Derives s ts f)
    {a : Atom} : a ∈ f.atoms ↔ .atom a ∈ ts ∧ ¬ a.IsConstant := by
  induction h with
  | atom b =>
      rw [mem_atoms_atom, List.mem_singleton, Token.atom.injEq]
      exact and_congr_right fun hab => by rw [hab]
  | not h ih => simp [mem_atoms_not, ih]
  | group h ih => simp [ih]
  | single h ih => exact ih
  | link hl hr ihl ihr => simp [mem_atoms_binary, ihl, ihr, or_and_right]

/-! ## The printed form -/

end Formula

end Sentential
