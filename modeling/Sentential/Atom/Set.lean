import Sentential.Ascending
import Sentential.Atom.Basic

/-!
# Sets of atoms

A finite set of atoms, listed in ascending order. Sets with the same members
are equal (`AtomSet.ext`).
-/

namespace Sentential

structure AtomSet where
  toList : List Atom
  ascending : toList.Pairwise (· < ·)
deriving DecidableEq

namespace AtomSet

instance : Membership Atom AtomSet := ⟨fun s a => a ∈ s.toList⟩

instance (a : Atom) (s : AtomSet) : Decidable (a ∈ s) :=
  inferInstanceAs (Decidable (a ∈ s.toList))

instance : EmptyCollection AtomSet := ⟨⟨[], .nil⟩⟩

def insert (a : Atom) (s : AtomSet) : AtomSet :=
  ⟨Ascending.insert (· < ·) a s.toList,
    Ascending.pairwise_insert (r := (· < ·)) (fun _ _ _ => Atom.lt_trans) a s.ascending⟩

def ofList (as : List Atom) : AtomSet := as.foldr insert ∅

instance : Union AtomSet := ⟨fun s t => s.toList.foldr insert t⟩

/-- Some atom is in both sets. -/
def Meets (s t : AtomSet) : Prop := ∃ a ∈ s.toList, a ∈ t

instance (s t : AtomSet) : Decidable (s.Meets t) :=
  inferInstanceAs (Decidable (∃ a ∈ s.toList, a ∈ t))

def size (s : AtomSet) : Nat := s.toList.length

theorem mem_toList {a : Atom} {s : AtomSet} : a ∈ s.toList ↔ a ∈ s := Iff.rfl

theorem nodup (s : AtomSet) : s.toList.Nodup :=
  s.ascending.imp fun {a b} (hlt : a < b) (heq : a = b) => Atom.lt_irrefl b (heq ▸ hlt)

theorem not_mem_empty (a : Atom) : a ∉ (∅ : AtomSet) := List.not_mem_nil

theorem mem_insert {a b : Atom} {s : AtomSet} : b ∈ s.insert a ↔ b = a ∨ b ∈ s :=
  Ascending.mem_insert_of_trichotomy (r := (· < ·)) Atom.lt_trichotomy

theorem mem_foldr_insert {a : Atom} {as : List Atom} {s : AtomSet} :
    a ∈ as.foldr insert s ↔ a ∈ as ∨ a ∈ s := by
  induction as with
  | nil => simp
  | cons b as ih => rw [List.foldr_cons, mem_insert, ih, List.mem_cons, or_assoc]

theorem mem_ofList {a : Atom} {as : List Atom} : a ∈ ofList as ↔ a ∈ as :=
  mem_foldr_insert.trans (or_iff_left (not_mem_empty a))

theorem mem_union {a : Atom} {s t : AtomSet} : a ∈ s ∪ t ↔ a ∈ s ∨ a ∈ t :=
  mem_foldr_insert

end AtomSet

end Sentential
