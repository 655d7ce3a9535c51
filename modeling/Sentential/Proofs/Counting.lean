import Mathlib.Algebra.Group.Nat.Defs
import Sentential.Proofs.Models

/-!
# The search counts in binary

What the search finds is kept in a set, and a set has its own order whatever the order
of the insertions was. Still the two are the same. A leaf of the search is a number
whose binary digits are the values of the atoms, the least atom first, and since false
is tried before true, the leaves are reached as one counts. That is also their order as
assignments, so every model that is found goes to the end of the set.

The search of `Models.lean` lists the models in the order of their insertion and leaves
the set out. Here it is run with the set, which may hold something from elsewhere, and
with a record of the leaves (`enumerate`). A run inserts just what the search lists
(`enumerate_eq`), from any state and for any atoms. So there is nothing new to prove
about the working assignment: that it comes back as it was is known from the search.
-/

namespace Sentential

/-! ## Sets of assignments -/

/-- A set of assignments, in ascending order. -/
structure AssignmentSet where
  toList : List Assignment
  ascending : toList.Pairwise fun m n => compare m n = .lt

namespace AssignmentSet

instance : Membership Assignment AssignmentSet := ⟨fun s m => m ∈ s.toList⟩

instance : EmptyCollection AssignmentSet := ⟨⟨[], .nil⟩⟩

def insert (s : AssignmentSet) (m : Assignment) : AssignmentSet :=
  ⟨Ascending.insert (fun m n => compare m n = .lt) m s.toList,
    Ascending.pairwise_insert (r := fun m n => compare m n = .lt)
      (fun _ _ _ => Std.TransCmp.lt_trans) m s.ascending⟩

/-- Insert one after the other. -/
def insertAll (s : AssignmentSet) (ms : List Assignment) : AssignmentSet := ms.foldl insert s

theorem notMem_empty (m : Assignment) : m ∉ (∅ : AssignmentSet) := List.not_mem_nil

theorem mem_insert {s : AssignmentSet} {m n : Assignment} :
    n ∈ s.insert m ↔ n = m ∨ n ∈ s :=
  Ascending.mem_insert_of_trichotomy (r := fun m n => compare m n = .lt)
    Assignment.compare_trichotomy

theorem mem_insertAll {s : AssignmentSet} {ms : List Assignment} {n : Assignment} :
    n ∈ s.insertAll ms ↔ n ∈ s ∨ n ∈ ms := by
  induction ms generalizing s with
  | nil => simp [insertAll]
  | cons m ms ih =>
      rw [insertAll, List.foldl_cons, ← insertAll, ih, mem_insert, List.mem_cons,
        or_comm (a := n = m), or_assoc]

theorem insertAll_append (s : AssignmentSet) (ms ns : List Assignment) :
    s.insertAll (ms ++ ns) = (s.insertAll ms).insertAll ns := List.foldl_append

/-- What is greater than all of a set goes to its end. -/
theorem toList_insert {s : AssignmentSet} {m : Assignment}
    (h : ∀ n ∈ s, compare n m = .lt) : (s.insert m).toList = s.toList ++ [m] :=
  Ascending.insert_of_forall_rel (r := fun m n => compare m n = .lt)
    (fun _ _ => Std.OrientedCmp.not_lt_of_lt) h

theorem toList_insertAll {s : AssignmentSet} {ms : List Assignment}
    (h : (s.toList ++ ms).Pairwise fun m n => compare m n = .lt) :
    (s.insertAll ms).toList = s.toList ++ ms := by
  induction ms generalizing s with
  | nil => exact (List.append_nil _).symm
  | cons m ms ih =>
      have hlast : ∀ n ∈ s, compare n m = .lt := by
        intro n hn
        exact (List.pairwise_append.1 h).2.2 n hn m List.mem_cons_self
      have hinsert : (s.insert m).toList ++ ms = s.toList ++ m :: ms := by
        rw [toList_insert hlast, List.append_assoc, List.singleton_append]
      rw [insertAll, List.foldl_cons, ← insertAll, ih (hinsert ▸ h), hinsert]

end AssignmentSet

/-! ## The leaves as numbers -/

namespace Assignment

/-- The number whose binary digits are the values of the atoms, the first one most
significant and true for one. -/
def number : List Atom → Assignment → Nat
  | [], _ => 0
  | a :: rest, m => (if m.get? a = some true then 2 ^ rest.length else 0) + number rest m

theorem map_number_extensions {as : List Atom} (h : as.Nodup) (m : Assignment) :
    (extensions as m).map (number as) = List.range (2 ^ as.length) := by
  induction as generalizing m with
  | nil => rfl
  | cons a rest ih =>
      obtain ⟨ha, hrest⟩ := List.nodup_cons.1 h
      -- Below the choice of a value for `a` the digit of `a` is that value.
      have hbelow : ∀ v, (extensions rest (m.insert a v)).map (number (a :: rest)) =
          (List.range (2 ^ rest.length)).map ((if v then 2 ^ rest.length else 0) + ·) := by
        intro v
        rw [← ih hrest (m.insert a v), List.map_map]
        refine List.map_congr_left fun n hn => ?_
        have hget : n.get? a = some v := by
          rw [(mem_extensions.1 hn).2 a ha, get?_insert, if_pos rfl]
        simp only [number, hget, Option.some.injEq, Function.comp_apply]
      have hfalse := hbelow false
      have htrue := hbelow true
      simp only [Bool.false_eq_true, if_false, Nat.zero_add, List.map_id'] at hfalse
      simp only [if_true] at htrue
      rw [extensions, List.map_append, hfalse, htrue, List.length_cons, Nat.pow_succ,
        Nat.mul_two, List.range_add]

end Assignment

/-! ## The search with its set -/

/-- A search between two of its steps: the working assignment, the leaves reached so
far, the latest one last, and the models found. -/
structure Enumeration where
  working : Assignment
  reached : List Assignment
  found : AssignmentSet

namespace Formula

open Assignment

/-- Search with the atoms still to be bound. At a leaf the working assignment goes into
the set if it makes the formula true. -/
def enumerate (f : Formula) : List Atom → Enumeration → Enumeration
  | [], s => ⟨s.working, s.reached ++ [s.working],
      if f.value s.working then s.found.insert s.working else s.found⟩
  | a :: rest, s =>
    let s := f.enumerate rest { s with working := s.working.insert a false }
    let s := f.enumerate rest { s with working := s.working.insert a true }
    { s with working := s.working.erase a }

/-- What a search hands back does not depend on what it finds. -/
theorem search_working (f g : Formula) (as : List Atom) (m : Assignment) :
    (f.search as m).2 = (g.search as m).2 := by
  induction as generalizing m with
  | nil => rfl
  | cons a rest ih => simp only [search, ih]

/-- The leaves are what the search for a formula that is always true lists, and the set
gains what the search for the formula lists. -/
theorem enumerate_eq (f : Formula) (as : List Atom) (s : Enumeration) :
    f.enumerate as s = ⟨(f.search as s.working).2,
      s.reached ++ ((atom .verum).search as s.working).1,
      s.found.insertAll (f.search as s.working).1⟩ := by
  induction as generalizing s with
  | nil =>
      cases hv : f.value s.working with
      | true => simp [enumerate, search, hv, AssignmentSet.insertAll, value, Atom.value]
      | false => simp [enumerate, search, hv, AssignmentSet.insertAll, value, Atom.value]
  | cons a rest ih =>
      simp only [enumerate, search, ih, search_working f (atom .verum),
        AssignmentSet.insertAll_append, List.append_assoc]

/-- Over atoms that are not bound yet a search runs through the extensions and leaves the
working assignment as it was. -/
theorem enumerate_eq_of_new (f : Formula) {as : List Atom} {s : Enumeration}
    (hnodup : as.Nodup) (hnew : ∀ a ∈ as, a ∉ s.working) :
    f.enumerate as s = ⟨s.working, s.reached ++ extensions as s.working,
      s.found.insertAll ((extensions as s.working).filter (f.value ·))⟩ := by
  have hall : (extensions as s.working).filter ((atom .verum).value ·) =
      extensions as s.working := List.filter_eq_self.2 fun _ _ => rfl
  rw [enumerate_eq, search_eq f hnodup hnew, search_eq _ hnodup hnew, hall]

theorem mem_found_enumerate {f : Formula} {as : List Atom} {s : Enumeration}
    (hnodup : as.Nodup) (hnew : ∀ a ∈ as, a ∉ s.working) {m : Assignment} :
    m ∈ (f.enumerate as s).found ↔ m ∈ s.found ∨
      (∀ a ∈ as, a ∈ m) ∧ (∀ a, a ∉ as → m.get? a = s.working.get? a) ∧
        f.value m = true := by
  rw [enumerate_eq_of_new f hnodup hnew, AssignmentSet.mem_insertAll, List.mem_filter,
    mem_extensions, and_assoc]

/-- Each model is greater than what is found before it. -/
theorem lt_of_satisfying_eq {f : Formula} {before after : List Assignment} {m n : Assignment}
    (h : f.satisfying = before ++ m :: after)
    (hn : n ∈ (∅ : AssignmentSet).insertAll before) : compare n m = .lt := by
  have hbefore : n ∈ before :=
    (AssignmentSet.mem_insertAll.1 hn).resolve_left (AssignmentSet.notMem_empty n)
  have hpairwise := pairwise_satisfying f
  rw [h] at hpairwise
  exact (List.pairwise_append.1 hpairwise).2.2 n hbefore m List.mem_cons_self

/-- The search for the models of a formula reaches one leaf for each number with as many
binary digits as there are free atoms, in the order of the numbers, which is the
ascending order of the assignments. Of the leaves it inserts those that make the formula
true, each of them new and greater than all before, so that the set lists them in the
order in which they came. And whatever is bound and found already, a search over atoms
that are not bound hands back the working assignment as it was, and the set has gained
exactly the true extensions by these atoms; in any case it inserts what the search
without a set lists, and hands back the same. -/
theorem search_counts (f : Formula) :
    (f.WellFormed → ∃ leaves inserted : List Assignment,
      f.enumerate f.atoms.toList ⟨∅, [], ∅⟩ =
        ⟨∅, leaves, (∅ : AssignmentSet).insertAll inserted⟩ ∧
      inserted = leaves.filter (f.value ·) ∧
      leaves.map (number f.atoms.toList) = List.range (2 ^ f.atoms.size) ∧
      (leaves.Pairwise fun m n => compare m n = .lt) ∧
      (∀ before m after, inserted = before ++ m :: after →
        m ∉ (∅ : AssignmentSet).insertAll before ∧
        ∀ n ∈ (∅ : AssignmentSet).insertAll before, compare n m = .lt) ∧
      ((∅ : AssignmentSet).insertAll inserted).toList = inserted ∧
      f.models = .ok inserted) ∧
    (∀ (as : List Atom) (s : Enumeration), as.Nodup → (∀ a ∈ as, a ∉ s.working) →
      (f.enumerate as s).working = s.working ∧
      ∀ m, m ∈ (f.enumerate as s).found ↔ m ∈ s.found ∨
        (∀ a ∈ as, a ∈ m) ∧ (∀ a, a ∉ as → m.get? a = s.working.get? a) ∧
          f.value m = true) ∧
    ∀ (as : List Atom) (s : Enumeration),
      (f.enumerate as s).working = (f.search as s.working).2 ∧
      (f.enumerate as s).found = s.found.insertAll (f.search as s.working).1 := by
  refine ⟨fun hf => ?_, fun as s hnodup hnew => ⟨?_, fun m => ?_⟩, fun as s => ?_⟩
  · refine ⟨table f.atoms, f.satisfying, ?_, rfl, ?_, pairwise_table f.atoms, ?_, ?_,
      models_eq hf⟩
    · exact enumerate_eq_of_new f f.atoms.nodup fun a _ => AtomSet.not_mem_empty a
    · exact map_number_extensions f.atoms.nodup ∅
    · intro before m after h
      refine ⟨fun hm => ?_, fun n hn => lt_of_satisfying_eq h hn⟩
      have hself : compare m m = .eq := Std.ReflCmp.compare_self
      cases hself.symm.trans (lt_of_satisfying_eq h hm)
    · exact AssignmentSet.toList_insertAll (pairwise_satisfying f)
  · rw [enumerate_eq_of_new f hnodup hnew]
  · exact mem_found_enumerate hnodup hnew
  · rw [enumerate_eq]
    exact ⟨rfl, rfl⟩

/-- `(C -> A) & B`, whose free atoms do not come in their order. -/
def unordered : Formula :=
  binary .and (binary .imply (atom ⟨'C'⟩) (atom ⟨'A'⟩)) (atom ⟨'B'⟩)

/-- The models are the numbers 2, 6 and 7. In a search over `B` and `A`, in this order,
an entry for `C` stays, and so does what is found already. -/
theorem search_counts_unordered :
    unordered.WellFormed ∧
      (∃ ms, unordered.models = .ok ms ∧
        ms.map (number [⟨'A'⟩, ⟨'B'⟩, ⟨'C'⟩]) = [2, 6, 7]) ∧
      (unordered.enumerate [⟨'B'⟩, ⟨'A'⟩]
        ⟨.ofList [(⟨'C'⟩, true)], [], (∅ : AssignmentSet).insert ∅⟩).working =
          .ofList [(⟨'C'⟩, true)] ∧
      ∅ ∈ (unordered.enumerate [⟨'B'⟩, ⟨'A'⟩]
        ⟨.ofList [(⟨'C'⟩, true)], [], (∅ : AssignmentSet).insert ∅⟩).found := by
  have hw : unordered.WellFormed := by decide
  obtain ⟨hcount, hrestore, -⟩ := search_counts unordered
  obtain ⟨leaves, inserted, -, -, -, -, -, -, hmodels⟩ := hcount hw
  obtain ⟨hworking, hfound⟩ := hrestore [⟨'B'⟩, ⟨'A'⟩]
    ⟨.ofList [(⟨'C'⟩, true)], [], (∅ : AssignmentSet).insert ∅⟩ (by decide) (by decide)
  refine ⟨hw, ⟨inserted, hmodels, ?_⟩, hworking, (hfound ∅).2 (.inl ?_)⟩
  · cases (models_eq hw).symm.trans hmodels
    decide
  · exact AssignmentSet.mem_insert.2 (.inl rfl)

end Formula

end Sentential
