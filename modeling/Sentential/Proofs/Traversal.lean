import Sentential.Proofs.CrossProduct

/-!
# The traversal lists the leaves of the conjunction

The clauses of a formula are listed with a stack. A conjunction on top is replaced
by its two sides, the left one above the right one, and anything else is moved to the
end of the list. So between two turns a formula is partly listed and partly waiting,
cut up at places that depend on its shape, and what stands on the stack is neither a
formula nor a list of clauses.

What does not change from turn to turn is the whole reading: the clauses listed so far,
and then the leaves of the waiting formulas, each read recursively from left to right.
At the beginning that is the reading of the formula, at the end it is the list. The end
is reached because a formula on top is worked off before anything below it is touched,
in a number of turns that its leaves determine.
-/

namespace Sentential

open Formula

/-- A traversal between two turns: the clauses listed so far, and the formulas that
wait, the top of the stack first. -/
structure Traversal where
  listed : List Formula
  waiting : List Formula

namespace Traversal

/-- One turn, if anything waits. -/
def turn? : Traversal → Option Traversal
  | ⟨_, []⟩ => none
  | ⟨listed, binary .and l r :: waiting⟩ => some ⟨listed, l :: r :: waiting⟩
  | ⟨listed, f :: waiting⟩ => some ⟨listed ++ [f], waiting⟩

/-- So many turns lead from the one state to the other. -/
inductive Turns : Nat → Traversal → Traversal → Prop
  | zero (s : Traversal) : Turns 0 s s
  | succ {n : Nat} {s t u : Traversal} (first : s.turn? = some t) (rest : Turns n t u) :
      Turns (n + 1) s u

theorem Turns.trans {m n : Nat} {s t u : Traversal} (hst : Turns m s t) (htu : Turns n t u) :
    Turns (m + n) s u := by
  induction hst with
  | zero s => rwa [Nat.zero_add]
  | succ first _ ih =>
      rw [Nat.succ_add]
      exact .succ first (ih htu)

theorem turn?_of_ne_and {f : Formula} (hf : ∀ a b, f ≠ binary .and a b)
    (listed waiting : List Formula) :
    turn? ⟨listed, f :: waiting⟩ = some ⟨listed ++ [f], waiting⟩ := by
  rw [turn?]
  exact hf

/-! ## What a turn keeps -/

/-- The clauses listed so far and then the leaves of what waits. -/
def reading (s : Traversal) : List Formula := s.listed ++ s.waiting.flatMap spine

theorem reading_of_turn? {s t : Traversal} (h : s.turn? = some t) : t.reading = s.reading := by
  unfold turn? at h
  split at h
  · cases h
  · next listed l r waiting =>
      cases h
      simp only [reading, List.flatMap_cons, spine, List.append_assoc]
  · next listed f waiting hf =>
      cases h
      simp only [reading, List.flatMap_cons, spine_eq_singleton hf, List.append_assoc]

theorem Turns.reading_eq {n : Nat} {s t : Traversal} (h : Turns n s t) :
    t.reading = s.reading := by
  induction h with
  | zero s => rfl
  | succ first _ ih => rw [ih, reading_of_turn? first]

/-! ## How a traversal ends -/

/-- The formula on top is worked off, in two turns for each of its leaves but one, and
what waits below it stays as it is. -/
theorem exists_turns_top (f : Formula) (listed waiting : List Formula) :
    ∃ n, n + 1 = 2 * f.spine.length ∧
      Turns n ⟨listed, f :: waiting⟩ ⟨listed ++ f.spine, waiting⟩ := by
  fun_induction spine f generalizing listed waiting with
  | case1 l r ihl ihr =>
      obtain ⟨m, hm, hleft⟩ := ihl listed (r :: waiting)
      obtain ⟨n, hn, hright⟩ := ihr (listed ++ l.spine) waiting
      rw [List.append_assoc] at hright
      refine ⟨m + n + 1, ?_, .succ rfl (hleft.trans hright)⟩
      rw [List.length_append]
      omega
  | case2 f hf =>
      refine ⟨1, rfl, .succ (turn?_of_ne_and hf listed waiting) (.zero _)⟩

end Traversal

namespace Formula

/-! ## Counting conjunctions -/

/-- How many conjunctions there are in a formula, anywhere in it. -/
def conjunctions : Formula → Nat
  | atom _ => 0
  | not f => f.conjunctions
  | binary .and l r => l.conjunctions + r.conjunctions + 1
  | binary _ l r => l.conjunctions + r.conjunctions

theorem IsClause.conjunctions_eq {f : Formula} (h : f.IsClause) : f.conjunctions = 0 := by
  induction f with
  | atom a => rfl
  | not g ih =>
      cases g with
      | atom a => rfl
      | not _ | binary _ _ _ => exact False.elim h.1
  | binary c l r ihl ihr =>
      obtain rfl : c = .or := h.1
      show l.conjunctions + r.conjunctions = 0
      rw [ihl h.2.1, ihr h.2.2]

/-- In conjunctive normal form every conjunction has its place on the spine. -/
theorem IsCnf.length_spine {f : Formula} (h : f.IsCnf) :
    f.spine.length = f.conjunctions + 1 := by
  fun_induction spine f with
  | case1 l r ihl ihr =>
      rw [List.length_append, ihl h.1, ihr h.2, conjunctions]
      omega
  | case2 f hf => rw [(h.isClause hf).conjunctions_eq, List.length_singleton]

/-- A formula in conjunctive normal form is true under a covering assignment exactly if
all its leaves are. -/
theorem evaluate_eq_ok_true_iff_spine {f : Formula} (h : f.IsCnf) {m : Assignment}
    (hm : m.Covers f) :
    f.evaluate m = .ok true ↔ ∀ c ∈ f.spine, c.evaluate m = .ok true := by
  have hleaf : ∀ c ∈ f.spine, c.evaluate m = .ok (c.value m) := by
    intro c hc
    refine evaluate_of_covers (isClause_of_mem_spine h hc).isNnf.wellFormed ?_
    intro a ha
    exact hm a (mem_atoms_of_mem_spine hc ha)
  rw [evaluate_of_covers h.isNnf.wellFormed hm, Except.ok.injEq, value_eq_all_spine,
    List.all_eq_true]
  refine forall₂_congr fun c hc => ?_
  rw [hleaf c hc, Except.ok.injEq]

/-- The clauses of a formula in conjunctive normal form are listed: those of the two
sides one after the other if it is a conjunction, and the formula by itself if it is
not. There is one more of them than there are conjunctions in the formula, each is a
clause, and under a covering assignment the formula is true exactly if all of them are.
The traversal that lists them never loses sight of that list, since what is listed and
the leaves of what waits always make it up, and it stops with it. -/
theorem traversal_lists_clauses {f : Formula} (h : f.IsCnf) : ∃ cs,
    f.clauses = .ok cs ∧
      (∀ l r, f = binary .and l r →
        ∃ ls rs, l.clauses = .ok ls ∧ r.clauses = .ok rs ∧ cs = ls ++ rs) ∧
      ((∀ l r, f ≠ binary .and l r) → cs = [f]) ∧
      cs.length = f.conjunctions + 1 ∧
      (∀ c ∈ cs, c.IsClause) ∧
      (∀ m : Assignment, m.Covers f →
        (f.evaluate m = .ok true ↔ ∀ c ∈ cs, c.evaluate m = .ok true)) ∧
      (∀ n s, Traversal.Turns n ⟨[], [f]⟩ s → s.listed ++ s.waiting.flatMap spine = cs) ∧
      Traversal.Turns (2 * f.conjunctions + 1) ⟨[], [f]⟩ ⟨cs, []⟩ := by
  refine ⟨f.spine, clauses_eq h, ?_, ?_, h.length_spine, ?_, ?_, ?_, ?_⟩
  · intro l r hf
    subst hf
    exact ⟨l.spine, r.spine, clauses_eq h.1, clauses_eq h.2, rfl⟩
  · intro hf
    exact spine_eq_singleton hf
  · intro c hc
    exact isClause_of_mem_spine h hc
  · intro m hm
    exact evaluate_eq_ok_true_iff_spine h hm
  · intro n s hs
    have hstart : Traversal.reading ⟨[], [f]⟩ = f.spine := by simp [Traversal.reading]
    exact hs.reading_eq.trans hstart
  · obtain ⟨n, hn, hturns⟩ := Traversal.exists_turns_top f [] []
    have hcount : n = 2 * f.conjunctions + 1 := by
      rw [h.length_spine] at hn
      omega
    rw [hcount] at hturns
    exact hturns

/-- `(A & (B | ~C)) & (T & ~B)`, whose right side waits while the left one is split. -/
def branching : Formula :=
  binary .and (binary .and (atom ⟨'A'⟩) (binary .or (atom ⟨'B'⟩) (not (atom ⟨'C'⟩))))
    (binary .and (atom .verum) (not (atom ⟨'B'⟩)))

theorem traversal_lists_clauses_branching :
    branching.IsCnf ∧ branching.clauses = .ok [atom ⟨'A'⟩,
        binary .or (atom ⟨'B'⟩) (not (atom ⟨'C'⟩)), atom .verum, not (atom ⟨'B'⟩)] ∧
      branching.conjunctions = 3 ∧
      (Assignment.ofList [(⟨'A'⟩, true), (⟨'B'⟩, false), (⟨'C'⟩, true)]).Covers branching ∧
      branching.evaluate (.ofList [(⟨'A'⟩, true), (⟨'B'⟩, false), (⟨'C'⟩, true)]) ≠
        .ok true ∧
      Traversal.Turns 7 ⟨[], [branching]⟩ ⟨[atom ⟨'A'⟩,
        binary .or (atom ⟨'B'⟩) (not (atom ⟨'C'⟩)), atom .verum, not (atom ⟨'B'⟩)], []⟩ := by
  have hcnf : branching.IsCnf := by decide
  have hclauses := clauses_eq hcnf
  have hcovers : (Assignment.ofList
      [(⟨'A'⟩, true), (⟨'B'⟩, false), (⟨'C'⟩, true)]).Covers branching := by
    show ∀ a ∈ branching.atoms.toList, a ∈ Assignment.ofList _
    decide
  obtain ⟨cs, hcs, -, -, -, -, htrue, -, hturns⟩ := traversal_lists_clauses hcnf
  cases hclauses.symm.trans hcs
  refine ⟨hcnf, hcs, rfl, hcovers, ?_, hturns⟩
  intro heval
  have hmiddle : (binary .or (atom ⟨'B'⟩) (not (atom ⟨'C'⟩))) ∈ branching.spine := by decide
  have htop := (htrue _ hcovers).1 heval _ hmiddle
  have hfalse : (binary .or (atom ⟨'B'⟩) (not (atom ⟨'C'⟩))).evaluate
      (.ofList [(⟨'A'⟩, true), (⟨'B'⟩, false), (⟨'C'⟩, true)]) = .ok false := rfl
  cases htop.symm.trans hfalse

end Formula

end Sentential
