import Sentential.Assignment.Basic

/-!
# The order of assignments

Assignments are compared entry by entry, first the atom and then the value,
false before true; an assignment that runs out first is less. The comparison
is a linear order: it is transitive, and only equal assignments compare as
equal.
-/

namespace Sentential

open Std

instance : TransOrd Atom := inferInstanceAs (TransCmp (compareOn Atom.symbol))

instance : LawfulEqOrd Atom where
  eq_of_compare {a b} h := by
    cases a
    cases b
    exact congrArg Atom.mk (LawfulEqOrd.eq_of_compare h)

namespace Assignment

def compareEntry : Atom × Bool → Atom × Bool → Ordering :=
  compareLex (compareOn Prod.fst) (compareOn Prod.snd)

instance : TransCmp compareEntry :=
  inferInstanceAs (TransCmp (compareLex (compareOn Prod.fst) (compareOn Prod.snd)))

instance : LawfulEqCmp compareEntry where
  eq_of_compare {x y} h := by
    have h := compareLex_eq_eq.1 h
    exact Prod.ext (LawfulEqOrd.eq_of_compare h.1) (LawfulEqOrd.eq_of_compare h.2)

def compareEntries : List (Atom × Bool) → List (Atom × Bool) → Ordering :=
  List.compareLex compareEntry

instance : TransCmp compareEntries := inferInstanceAs (TransCmp (List.compareLex compareEntry))

instance : LawfulEqCmp compareEntries :=
  inferInstanceAs (LawfulEqCmp (List.compareLex compareEntry))

instance : Ord Assignment := ⟨fun m n => compareEntries m.entries n.entries⟩

instance : TransOrd Assignment where
  eq_swap {m n} := @OrientedCmp.eq_swap _ compareEntries _ m.entries n.entries
  isLE_trans {m n o} := @TransCmp.isLE_trans _ compareEntries _ m.entries n.entries o.entries

instance : LawfulEqOrd Assignment where
  eq_of_compare {m n} h := by
    have he : m.entries = n.entries :=
      @LawfulEqCmp.eq_of_compare _ compareEntries _ m.entries n.entries h
    cases m
    cases n
    cases he
    rfl

/-- Of two assignments one is less, unless they are the same. -/
theorem compare_trichotomy (m n : Assignment) :
    compare m n = .lt ∨ m = n ∨ compare n m = .lt := by
  cases h : compare m n with
  | lt => exact .inl rfl
  | eq => exact .inr (.inl (LawfulEqOrd.eq_of_compare h))
  | gt => exact .inr (.inr (OrientedCmp.lt_of_gt h))

/-- In ascending order. -/
def sort (ms : List Assignment) : List Assignment :=
  ms.mergeSort (fun m n => (compare m n).isLE)

end Assignment

end Sentential
