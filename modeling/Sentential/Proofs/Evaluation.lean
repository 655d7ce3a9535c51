import Sentential.Models
import Sentential.Proofs.Extensionality

/-!
# Evaluating, and what an evaluation reads

An evaluation has three outcomes, and each is settled by something that can be
said without running it: whether the formula is well formed, which of its free
atoms have an entry, and what its truth functions make of the entries. The
first two never look at the shape of the formula, only at its atoms.

That is what lets a rewriting be compared with what it was given. `Equivalent`
asks for well-formed formulas, the same free atoms and the same truth value
under every assignment, and two such formulas cannot be told apart by any
evaluation, missing entries included, nor by the search for models. The second
half of the file gives assignments by tabulation, which is how a formula is
shown to be falsifiable.
-/

namespace Sentential

/-- Every free atom of the formula has an entry. -/
def Assignment.Covers (m : Assignment) (f : Formula) : Prop :=
  ∀ a ∈ f.atoms, a ∈ m

theorem Assignment.Covers.insert {m : Assignment} {f : Formula} (h : m.Covers f) (a : Atom)
    (v : Bool) : (m.insert a v).Covers f :=
  fun b hb => mem_insert.2 (.inr (h b hb))

theorem Atom.value_falsum (m : Assignment) : falsum.value m = false := rfl

/-- A new entry is read for its own atom, if that is not a constant. -/
theorem Atom.value_insert_self {m : Assignment} {a : Atom} {v : Bool} (ha : ¬ a.IsConstant) :
    a.value (m.insert a v) = v := by
  rw [Atom.value, if_neg fun h => ha (.inl h), if_neg fun h => ha (.inr h),
    Assignment.get?_insert, if_pos rfl]
  rfl

theorem Atom.value_insert_of_ne {m : Assignment} {a b : Atom} {v : Bool} (h : b ≠ a) :
    b.value (m.insert a v) = b.value m := by
  rw [Atom.value, Atom.value, Assignment.get?_insert, if_neg h]

namespace Formula

theorem unassigned?_eq_none_iff {f : Formula} {m : Assignment} :
    f.unassigned? m = none ↔ m.Covers f := by
  rw [unassigned?, List.find?_eq_none]
  exact forall₂_congr fun a ha => by rw [decide_eq_true_eq, Decidable.not_not]

/-- Of the free atoms without an entry the least. -/
structure IsLeastUnassigned (f : Formula) (m : Assignment) (a : Atom) : Prop where
  mem_atoms : a ∈ f.atoms
  notMem : a ∉ m
  least : ∀ b ∈ f.atoms, b ∉ m → ¬ b < a

theorem IsLeastUnassigned.unique {f : Formula} {m : Assignment} {a b : Atom}
    (ha : f.IsLeastUnassigned m a) (hb : f.IsLeastUnassigned m b) : a = b := by
  rcases Atom.lt_trichotomy a b with hlt | heq | hlt
  · exact absurd hlt (hb.least a ha.mem_atoms ha.notMem)
  · exact heq
  · exact absurd hlt (ha.least b hb.mem_atoms hb.notMem)

theorem isLeastUnassigned_of_unassigned? {f : Formula} {m : Assignment} {a : Atom}
    (h : f.unassigned? m = some a) : f.IsLeastUnassigned m a := by
  obtain ⟨hno, before, after, hsplit, hbefore⟩ := List.find?_eq_some_iff_append.1 h
  have hsorted : (before ++ a :: after).Pairwise (· < ·) := hsplit ▸ f.atoms.ascending
  refine ⟨?_, of_decide_eq_true hno, fun b hb hbm hlt => ?_⟩
  · show a ∈ f.atoms.toList
    rw [hsplit]
    exact List.mem_append_right before List.mem_cons_self
  · have hmem : b ∈ before ++ a :: after := hsplit ▸ hb
    rcases List.mem_append.1 hmem with hmem | hmem
    · have hin := hbefore b hmem
      simp [hbm] at hin
    · rcases List.mem_cons.1 hmem with rfl | hmem
      · exact Atom.lt_irrefl b hlt
      · have hafter := (List.pairwise_cons.1 (List.pairwise_append.1 hsorted).2.1).1 b hmem
        exact Atom.lt_asymm hafter hlt

theorem unassigned?_eq_some_iff {f : Formula} {m : Assignment} {a : Atom} :
    f.unassigned? m = some a ↔ f.IsLeastUnassigned m a := by
  refine ⟨isLeastUnassigned_of_unassigned?, fun h => ?_⟩
  cases hu : f.unassigned? m with
  | none => exact absurd (unassigned?_eq_none_iff.1 hu a h.mem_atoms) h.notMem
  | some b => rw [h.unique (isLeastUnassigned_of_unassigned? hu)]

theorem evaluate_of_isLeastUnassigned {f : Formula} {m : Assignment} {a : Atom}
    (hw : f.WellFormed) (h : f.IsLeastUnassigned m a) :
    f.evaluate m = .error (.unassigned a) := by
  rw [evaluate, if_pos hw, unassigned?_eq_some_iff.2 h]

/-- Under a covering assignment a well-formed formula has its truth value. -/
theorem evaluate_of_covers {f : Formula} {m : Assignment} (hw : f.WellFormed)
    (hm : m.Covers f) : f.evaluate m = .ok (f.value m) := by
  rw [evaluate, if_pos hw, unassigned?_eq_none_iff.2 hm]

/-- Under any other it has an error, which names a free atom without an entry. -/
theorem evaluate_cases {f : Formula} (hw : f.WellFormed) (m : Assignment) :
    f.evaluate m = .ok (f.value m) ∨
      ∃ a ∈ f.atoms, a ∉ m ∧ f.evaluate m = .error (.unassigned a) := by
  cases hu : f.unassigned? m with
  | none => exact .inl (evaluate_of_covers hw (unassigned?_eq_none_iff.1 hu))
  | some a =>
      have hfind : f.atoms.toList.find? (· ∉ m) = some a := hu
      have hmem : a ∈ f.atoms := List.mem_of_find?_eq_some hfind
      have hno : a ∉ m := by simpa using List.find?_some hfind
      exact .inr ⟨a, hmem, hno, by rw [evaluate, if_pos hw, hu]⟩

/-- The truth value of a formula where its atoms are worth `v`. The constants are worth
what they say. -/
def valueBy (v : Atom → Bool) : Formula → Bool
  | atom a => if a = .verum then true else if a = .falsum then false else v a
  | not f => !f.valueBy v
  | binary c l r => c.apply (l.valueBy v) (r.valueBy v)

theorem value_eq_valueBy (m : Assignment) (f : Formula) :
    f.value m = f.valueBy fun a => (m.get? a).getD false := by
  induction f with
  | atom a => rfl
  | not f ih => rw [value, valueBy, ih]
  | binary c l r ihl ihr => rw [value, valueBy, ihl, ihr]

/-- The truth value depends on what the free atoms are worth. -/
theorem valueBy_congr {v w : Atom → Bool} {f : Formula} (h : ∀ a ∈ f.atoms, v a = w a) :
    f.valueBy v = f.valueBy w := by
  induction f with
  | atom a =>
      by_cases ha : a.IsConstant
      · rcases ha with rfl | rfl <;> rfl
      · rw [valueBy, valueBy, h a (mem_atoms_atom.2 ⟨rfl, ha⟩)]
  | not f ih => rw [valueBy, valueBy, ih h]
  | binary c l r ihl ihr =>
      rw [valueBy, valueBy, ihl fun a ha => h a (mem_atoms_binary.2 (.inl ha)),
        ihr fun a ha => h a (mem_atoms_binary.2 (.inr ha))]

/-- Of an assignment a formula reads the entries of its free atoms. -/
theorem value_congr {f : Formula} {m n : Assignment} (h : ∀ a ∈ f.atoms, m.get? a = n.get? a) :
    f.value m = f.value n := by
  rw [value_eq_valueBy, value_eq_valueBy]
  exact valueBy_congr fun a ha => by rw [h a ha]

/-- Two well-formed formulas with the same free atoms and the same truth value
under every assignment. -/
structure Equivalent (f g : Formula) : Prop where
  wellFormed_left : f.WellFormed
  wellFormed_right : g.WellFormed
  atoms_eq : f.atoms = g.atoms
  value_eq : ∀ m, f.value m = g.value m

theorem Equivalent.refl {f : Formula} (h : f.WellFormed) : f.Equivalent f :=
  ⟨h, h, rfl, fun _ => rfl⟩

theorem Equivalent.trans {f g h : Formula} (hfg : f.Equivalent g) (hgh : g.Equivalent h) :
    f.Equivalent h where
  wellFormed_left := hfg.wellFormed_left
  wellFormed_right := hgh.wellFormed_right
  atoms_eq := hfg.atoms_eq.trans hgh.atoms_eq
  value_eq m := (hfg.value_eq m).trans (hgh.value_eq m)

/-- No evaluation tells equivalent formulas apart, not even one that fails. -/
theorem Equivalent.evaluate_eq {f g : Formula} (h : f.Equivalent g) (m : Assignment) :
    f.evaluate m = g.evaluate m := by
  have hu : f.unassigned? m = g.unassigned? m := by
    rw [unassigned?, unassigned?, h.atoms_eq]
  rw [evaluate, evaluate, if_pos h.wellFormed_left, if_pos h.wellFormed_right, hu,
    h.value_eq m]

theorem search_congr {f g : Formula} (hv : ∀ m, f.value m = g.value m) (as : List Atom)
    (m : Assignment) : f.search as m = g.search as m := by
  induction as generalizing m with
  | nil => rw [search, search, hv]
  | cons a rest ih => simp only [search, ih]

/-- Nor does the search for models. -/
theorem Equivalent.models_eq {f g : Formula} (h : f.Equivalent g) : f.models = g.models := by
  rw [models, models, if_pos h.wellFormed_left, if_pos h.wellFormed_right, h.atoms_eq,
    search_congr h.value_eq]

end Formula

/-! ## Assignments by tabulation -/

namespace Assignment

/-- The assignment that gives each atom of a set the value `v` has for it. -/
def tabulate (s : AtomSet) (v : Atom → Bool) : Assignment :=
  ⟨s.toList.map fun a => (a, v a), List.pairwise_map.2 s.ascending⟩

theorem get?_tabulate_eq_some_iff {s : AtomSet} {v : Atom → Bool} {a : Atom} {b : Bool} :
    (tabulate s v).get? a = some b ↔ a ∈ s ∧ v a = b := by
  rw [get?_eq_some_iff, tabulate, List.mem_map]
  refine ⟨fun h => ?_, fun ⟨ha, hv⟩ => ⟨a, ha, by rw [hv]⟩⟩
  obtain ⟨c, hc, heq⟩ := h
  cases heq
  exact ⟨hc, rfl⟩

theorem get?_tabulate {s : AtomSet} {v : Atom → Bool} {a : Atom} (ha : a ∈ s) :
    (tabulate s v).get? a = some (v a) := get?_tabulate_eq_some_iff.2 ⟨ha, rfl⟩

theorem keys_tabulate (s : AtomSet) (v : Atom → Bool) : (tabulate s v).keys = s := by
  refine AtomSet.ext fun a => ?_
  show a ∈ (s.toList.map fun a => (a, v a)).map (·.1) ↔ a ∈ s
  rw [List.map_map]
  exact Iff.of_eq (congrArg (a ∈ ·) (List.map_id s.toList))

theorem value_tabulate {s : AtomSet} {v : Atom → Bool} {a : Atom} (ha : a ∈ s)
    (hk : ¬ a.IsConstant) : a.value (tabulate s v) = v a := by
  rw [Atom.value, if_neg fun h => hk (.inl h), if_neg fun h => hk (.inr h),
    get?_tabulate ha]
  rfl

theorem covers_tabulate (f : Formula) (v : Atom → Bool) : (tabulate f.atoms v).Covers f := by
  intro a ha
  rw [← mem_keys, keys_tabulate]
  exact ha

end Assignment

end Sentential
