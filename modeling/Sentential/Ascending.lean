/-!
# Ascending lists

Sets of atoms and assignments are kept as lists that ascend strictly, so
that each has one list and is listed in order. An element is inserted
between the elements before it and the elements after it; an element that is
neither gives way to it.
-/

namespace Sentential.Ascending

variable {α : Type} {r : α → α → Prop} [DecidableRel r]

/-- Put `x` in its place. -/
def insert (r : α → α → Prop) [DecidableRel r] (x : α) (xs : List α) : List α :=
  xs.filter (fun y => r y x) ++ x :: xs.filter (fun y => r x y)

theorem mem_insert {x y : α} {xs : List α} :
    y ∈ insert r x xs ↔ y = x ∨ (y ∈ xs ∧ (r y x ∨ r x y)) := by
  simp only [insert, List.mem_append, List.mem_cons, List.mem_filter, decide_eq_true_eq]
  constructor
  · rintro (h | h | h)
    · exact .inr ⟨h.1, .inl h.2⟩
    · exact .inl h
    · exact .inr ⟨h.1, .inr h.2⟩
  · rintro (h | ⟨h, hr | hr⟩)
    · exact .inr (.inl h)
    · exact .inl ⟨h, hr⟩
    · exact .inr (.inr ⟨h, hr⟩)

/-- In a linear order nothing gives way but the element itself. -/
theorem mem_insert_of_trichotomy (trichotomy : ∀ x y, r x y ∨ x = y ∨ r y x) {x y : α}
    {xs : List α} : y ∈ insert r x xs ↔ y = x ∨ y ∈ xs := by
  refine mem_insert.trans ⟨?_, ?_⟩
  · rintro (h | h)
    · exact .inl h
    · exact .inr h.1
  · rintro (h | h)
    · exact .inl h
    · rcases trichotomy y x with hlt | he | hlt
      · exact .inr ⟨h, .inl hlt⟩
      · exact .inl he
      · exact .inr ⟨h, .inr hlt⟩

theorem pairwise_insert (trans : ∀ x y z, r x y → r y z → r x z) (x : α) {xs : List α}
    (h : xs.Pairwise r) : (insert r x xs).Pairwise r := by
  refine List.pairwise_append.2 ⟨h.filter _, List.pairwise_cons.2 ⟨?_, h.filter _⟩, ?_⟩
  · intro z hz
    exact of_decide_eq_true (List.mem_filter.1 hz).2
  · intro y hy z hz
    have hyx : r y x := of_decide_eq_true (List.mem_filter.1 hy).2
    cases List.mem_cons.1 hz with
    | inl h => exact h ▸ hyx
    | inr h => exact trans y x z hyx (of_decide_eq_true (List.mem_filter.1 h).2)

/-- An element after all the others goes to the end. -/
theorem insert_of_forall_rel (asymm : ∀ x y, r x y → ¬ r y x) {x : α} {xs : List α}
    (h : ∀ y ∈ xs, r y x) : insert r x xs = xs ++ [x] := by
  have hbefore : xs.filter (fun y => r y x) = xs :=
    List.filter_eq_self.2 fun y hy => decide_eq_true (h y hy)
  have hafter : xs.filter (fun y => r x y) = [] :=
    List.filter_eq_nil_iff.2 fun y hy => by simpa using asymm y x (h y hy)
  rw [insert, hbefore, hafter]

end Sentential.Ascending
