import Sentential.Atom.Set

/-!
# Assignments

An assignment gives truth values to finitely many atoms. It is the list of
its entries in ascending order of the atoms, one entry for an atom. The view
is `get?`: two assignments with the same look-ups are equal, and each
operation is described by what it does to the look-ups.
-/

namespace Sentential

structure Assignment where
  entries : List (Atom × Bool)
  ascending : entries.Pairwise (·.1 < ·.1)
deriving DecidableEq

namespace Assignment

instance : EmptyCollection Assignment := ⟨⟨[], .nil⟩⟩

def get? (m : Assignment) (a : Atom) : Option Bool := m.entries.lookup a

/-- Give `a` the value `v`, in place of any value it had. -/
def insert (m : Assignment) (a : Atom) (v : Bool) : Assignment :=
  ⟨Ascending.insert (·.1 < ·.1) (a, v) m.entries,
    Ascending.pairwise_insert (r := (·.1 < ·.1)) (fun _ _ _ => Atom.lt_trans) (a, v)
      m.ascending⟩

def erase (m : Assignment) (a : Atom) : Assignment :=
  ⟨m.entries.filter (fun e => e.1 ≠ a), m.ascending.filter _⟩

/-- Of several entries for one atom the last counts. -/
def ofList (entries : List (Atom × Bool)) : Assignment :=
  entries.foldl (fun m e => m.insert e.1 e.2) ∅

/-- The atoms that have an entry. -/
def keys (m : Assignment) : AtomSet :=
  ⟨m.entries.map (·.1), List.pairwise_map.2 m.ascending⟩

instance : Membership Atom Assignment := ⟨fun m a => a ∈ m.keys⟩

instance (a : Atom) (m : Assignment) : Decidable (a ∈ m) :=
  inferInstanceAs (Decidable (a ∈ m.keys))

def size (m : Assignment) : Nat := m.entries.length

/-- The entries in order, as in `{A: T, B: F}`. -/
def text (m : Assignment) : String :=
  let entry := fun (e : Atom × Bool) => e.1.name ++ ": " ++ if e.2 then "T" else "F"
  String.singleton '{' ++ String.intercalate ", " (m.entries.map entry) ++ String.singleton '}'

theorem lookup_eq_some_iff {a : Atom} {v : Bool} {es : List (Atom × Bool)}
    (h : es.Pairwise (·.1 < ·.1)) : es.lookup a = some v ↔ (a, v) ∈ es := by
  induction es with
  | nil => simp
  | cons e es ih =>
    obtain ⟨he, hes⟩ := List.pairwise_cons.1 h
    cases e with
    | mk b w =>
      rw [List.lookup_cons, List.mem_cons]
      by_cases hab : a = b
      · subst hab
        have hn : (a, v) ∉ es := fun hm => Atom.lt_irrefl a (he _ hm)
        simp [hn, eq_comm]
      · simp [hab, beq_false_of_ne hab, ih hes]

theorem get?_eq_some_iff {m : Assignment} {a : Atom} {v : Bool} :
    m.get? a = some v ↔ (a, v) ∈ m.entries := lookup_eq_some_iff m.ascending

theorem mem_iff {m : Assignment} {a : Atom} : a ∈ m ↔ ∃ v, m.get? a = some v := by
  refine List.mem_map.trans ⟨?_, ?_⟩
  · rintro ⟨e, he, rfl⟩
    exact ⟨e.2, get?_eq_some_iff.2 he⟩
  · rintro ⟨v, hv⟩
    exact ⟨(a, v), get?_eq_some_iff.1 hv, rfl⟩

theorem mem_keys {m : Assignment} {a : Atom} : a ∈ m.keys ↔ a ∈ m := Iff.rfl

theorem get?_empty (a : Atom) : (∅ : Assignment).get? a = none := rfl

theorem get?_insert {m : Assignment} {a b : Atom} {v : Bool} :
    (m.insert a v).get? b = if b = a then some v else m.get? b := by
  refine Option.ext fun w => ?_
  refine get?_eq_some_iff.trans
    ((Ascending.mem_insert (α := Atom × Bool) (r := (·.1 < ·.1))).trans ?_)
  by_cases hb : b = a
  · subst hb
    rw [if_pos rfl]
    simp [Atom.lt_irrefl, eq_comm]
  · rw [if_neg hb, get?_eq_some_iff]
    have hlt : b < a ∨ a < b := by
      rcases Atom.lt_trichotomy b a with h | h | h
      · exact .inl h
      · exact absurd h hb
      · exact .inr h
    simp [hb, hlt]

theorem get?_erase {m : Assignment} {a b : Atom} :
    (m.erase a).get? b = if b = a then none else m.get? b := by
  refine Option.ext fun w => ?_
  refine get?_eq_some_iff.trans (List.mem_filter.trans ?_)
  by_cases hb : b = a
  · simp [hb]
  · simp [hb, get?_eq_some_iff]

theorem get?_eq_none_iff {m : Assignment} {a : Atom} : m.get? a = none ↔ a ∉ m := by
  rw [mem_iff, Option.eq_none_iff_forall_ne_some, not_exists]

theorem mem_insert {m : Assignment} {a b : Atom} {v : Bool} :
    b ∈ m.insert a v ↔ b = a ∨ b ∈ m := by
  rw [mem_iff, mem_iff, get?_insert]
  by_cases hb : b = a <;> simp [hb]

end Assignment

end Sentential
