import Mathlib.Data.List.Sort
import Sentential.Assignment.Basic

/-!
# Sets by their members, assignments by their look-ups

Both are kept as lists that ascend, and an ascending list has no choice about the order of
its members. So a set of atoms is determined by what is in it and an assignment by what it
gives, and equations between assignments are equations between look-ups.
-/

namespace Sentential

instance : Std.Asymm (α := Atom) (· < ·) := ⟨fun _ _ => Atom.lt_asymm⟩

theorem AtomSet.ext {s t : AtomSet} (h : ∀ a, a ∈ s ↔ a ∈ t) : s = t := by
  have hlist : s.toList = t.toList := s.ascending.eq_of_mem_iff t.ascending h
  cases s
  cases t
  cases hlist
  rfl

namespace Assignment

instance : Std.Asymm (α := Atom × Bool) (·.1 < ·.1) := ⟨fun _ _ => Atom.lt_asymm⟩

theorem ext {m n : Assignment} (h : ∀ a, m.get? a = n.get? a) : m = n := by
  have hentries : m.entries = n.entries := by
    refine m.ascending.eq_of_mem_iff n.ascending fun e => ?_
    rw [← get?_eq_some_iff (a := e.1) (v := e.2), ← get?_eq_some_iff (a := e.1) (v := e.2), h]
  cases m
  cases n
  cases hentries
  rfl

/-- The last of several values counts. -/
theorem insert_insert (m : Assignment) (a : Atom) (v w : Bool) :
    (m.insert a v).insert a w = m.insert a w := by
  refine ext fun b => ?_
  rw [get?_insert, get?_insert, get?_insert]
  by_cases hb : b = a <;> simp [hb]

theorem insert_comm (m : Assignment) {a b : Atom} (h : a ≠ b) (v w : Bool) :
    (m.insert a v).insert b w = (m.insert b w).insert a v := by
  refine ext fun c => ?_
  rw [get?_insert, get?_insert, get?_insert, get?_insert]
  by_cases ha : c = a
  · have hb : c ≠ b := ha ▸ h
    rw [if_neg hb, if_pos ha, if_pos ha]
  · rw [if_neg ha, if_neg ha]

/-- An entry that was not there is undone by taking it away. -/
theorem erase_insert {m : Assignment} {a : Atom} (h : a ∉ m) (v : Bool) :
    (m.insert a v).erase a = m := by
  refine ext fun b => ?_
  rw [get?_erase, get?_insert]
  by_cases hb : b = a
  · rw [if_pos hb, hb, get?_eq_none_iff.2 h]
  · rw [if_neg hb, if_neg hb]

end Assignment

end Sentential
