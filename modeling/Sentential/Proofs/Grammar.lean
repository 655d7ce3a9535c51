import Mathlib.Data.List.Induction
import Sentential.Formula.Parser

/-!
# The grammar

Five strata, from the loosest to the tightest: the chains of the
biconditional, of the conditional, of disjunction and of conjunction, and the
operands, which are atoms, negated operands and groups.

    E ::= E '<->' I | I
    I ::= I '->' D | D
    D ::= D '|' C | C
    C ::= C '&' U | U
    U ::= '~' U | atom | '(' E ')'

The four rules for chains are one rule, taken at each connective. How tightly
a connective binds is not mentioned in it: that is in where the operands of a
chain come from (`Stratum.below`) and nowhere else. A chain is recursive on the
left, so a phrase with several signs of one connective can only be taken apart
at the last of them.

What is proved here is about derivations alone. A phrase of a stratum is one
of every looser stratum with the same tree (`Derives.mono`), the phrases of a
chain are its operands folded to the left (`derives_chain_iff`), and operands
joined by any signs whatever come apart at the last of the loosest signs
(`derives_joined`).
-/

namespace Sentential.Formula

inductive Stratum where
  | operand
  | chain (c : Connective)
deriving DecidableEq

namespace Stratum

/-- Where the operands of a chain come from. -/
def below : Connective → Stratum
  | .and => operand
  | .or => chain .and
  | .imply => chain .or
  | .iff => chain .imply

/-- How loose a stratum is. -/
def level : Stratum → Nat
  | operand => 0
  | chain c => c.level

/-- Nothing lies between a chain and its operands. -/
theorem le_level_below_iff (s : Stratum) (c : Connective) :
    s.level ≤ (below c).level ↔ s.level < c.level := by
  cases s with
  | operand => cases c <;> decide
  | chain d => cases d <;> cases c <;> decide

theorem level_below_lt (c : Connective) : (below c).level < c.level :=
  (le_level_below_iff (below c) c).1 (Nat.le_refl _)

theorem one_le_level (c : Connective) : 1 ≤ c.level := by
  cases c <;> decide

theorem eq_of_level_eq {s t : Stratum} (h : s.level = t.level) : s = t := by
  cases s with
  | operand =>
      cases t with
      | operand => rfl
      | chain c =>
          have hc : 1 ≤ (chain c).level := one_le_level c
          rw [← h] at hc
          exact absurd hc (by decide)
  | chain c =>
      cases t with
      | operand =>
          have hc : 1 ≤ (chain c).level := one_le_level c
          rw [h] at hc
          exact absurd hc (by decide)
      | chain d =>
          revert h
          cases c <;> cases d <;> decide

/-- What is not looser than a chain is the chain or not looser than its
operands. -/
theorem eq_or_level_le_below {s : Stratum} {c : Connective} (h : s.level ≤ c.level) :
    s = chain c ∨ s.level ≤ (below c).level := by
  by_cases heq : s.level = c.level
  · exact .inl (eq_of_level_eq heq)
  · exact .inr ((le_level_below_iff s c).2 (Nat.lt_of_le_of_ne h heq))

theorem level_le_iff (s : Stratum) : s.level ≤ Connective.iff.level := by
  cases s with
  | operand => exact Nat.zero_le _
  | chain c => cases c <;> decide

end Stratum

/-- The phrases of a stratum, each with its tree. A group leaves no node. -/
inductive Derives : Stratum → List Token → Formula → Prop
  | atom (a : Atom) : Derives .operand [.atom a] (.atom a)
  | not {ts : List Token} {f : Formula} (h : Derives .operand ts f) :
      Derives .operand (.not :: ts) (.not f)
  | group {ts : List Token} {f : Formula} (h : Derives (.chain .iff) ts f) :
      Derives .operand (.opening :: (ts ++ [.closing])) f
  | single {c : Connective} {ts : List Token} {f : Formula} (h : Derives (.below c) ts f) :
      Derives (.chain c) ts f
  | link {c : Connective} {ls rs : List Token} {l r : Formula}
      (hl : Derives (.chain c) ls l) (hr : Derives (.below c) rs r) :
      Derives (.chain c) (ls ++ .connective c :: rs) (.binary c l r)

/-- A phrase of one stratum is a phrase of every looser one. -/
theorem Derives.mono {s t : Stratum} {ts : List Token} {f : Formula}
    (h : Derives s ts f) (hle : s.level ≤ t.level) : Derives t ts f := by
  match t with
  | .operand =>
      rw [← Stratum.eq_of_level_eq (s := s) (t := .operand) (Nat.le_zero.1 hle)]
      exact h
  | .chain c =>
      obtain heq | hbelow := Stratum.eq_or_level_le_below hle
      · rw [← heq]
        exact h
      · exact .single (h.mono hbelow)
termination_by t.level
decreasing_by exact Stratum.level_below_lt c

/-! ## Operands joined by signs -/

/-- A phrase, its tree and its derivation. -/
structure Phrase (s : Stratum) where
  tokens : List Token
  tree : Formula
  derives : Derives s tokens tree

/-- A phrase followed by others, each behind the sign of its connective. -/
def Phrase.joined {s : Stratum} (first : Phrase s) (links : List (Connective × Phrase s)) :
    List Token :=
  first.tokens ++ links.flatMap fun l => .connective l.1 :: l.2.tokens

variable {s : Stratum}

theorem Phrase.joined_nil (first : Phrase s) : first.joined [] = first.tokens :=
  List.append_nil _

theorem Phrase.joined_append (first : Phrase s) (links : List (Connective × Phrase s))
    (c : Connective) (next : Phrase s) (more : List (Connective × Phrase s)) :
    first.joined (links ++ (c, next) :: more) =
      first.joined links ++ .connective c :: next.joined more := by
  simp only [joined, List.flatMap_append, List.flatMap_cons, List.append_assoc, List.cons_append]

/-- The phrases of a chain are its operands, folded to the left. -/
theorem derives_chain_iff {c : Connective} {ts : List Token} {f : Formula} :
    Derives (.chain c) ts f ↔ ∃ (first : Phrase (.below c)) (others : List (Phrase (.below c))),
      ts = first.joined (others.map (c, ·)) ∧
        f = others.foldl (fun l p => .binary c l p.tree) first.tree := by
  constructor
  · intro h
    generalize hs : Stratum.chain c = s at h
    induction h with
    | atom a => cases hs
    | not h ih => cases hs
    | group h ih => cases hs
    | single h ih =>
        cases hs
        exact ⟨⟨_, _, h⟩, [], (Phrase.joined_nil ⟨_, _, h⟩).symm, rfl⟩
    | link hl hr ihl ihr =>
        cases hs
        obtain ⟨first, others, hts, hf⟩ := ihl rfl
        refine ⟨first, others ++ [⟨_, _, hr⟩], ?_, ?_⟩
        · rw [List.map_append, List.map_singleton, Phrase.joined_append, Phrase.joined_nil, hts]
        · rw [List.foldl_append, hf]
          rfl
  · intro h
    obtain ⟨first, others, hts, hf⟩ := h
    subst hts hf
    induction others using List.reverseRecOn with
    | nil =>
        rw [List.map_nil, Phrase.joined_nil]
        exact .single first.derives
    | append_singleton others last ih =>
        rw [List.map_append, List.map_singleton, Phrase.joined_append, Phrase.joined_nil,
          List.foldl_append]
        exact .link ih last.derives

/-- A sign that the stratum allows and an operand behind it extend a phrase. -/
theorem Derives.exists_append {ts : List Token} {f : Formula} (h : Derives s ts f)
    {c : Connective} (hle : c.level ≤ s.level) (next : Phrase .operand) :
    ∃ g, Derives s (ts ++ .connective c :: next.tokens) g := by
  have hnext : Derives (.below c) next.tokens next.tree := next.derives.mono (Nat.zero_le _)
  have hoperand : ¬ c.level ≤ Stratum.operand.level :=
    Nat.not_le_of_lt (Stratum.one_le_level c)
  induction h with
  | atom | not | group => exact absurd hle hoperand
  | single h ih =>
      obtain heq | hbelow := Stratum.eq_or_level_le_below (s := .chain c) hle
      · cases heq
        exact ⟨_, .link (.single h) hnext⟩
      · obtain ⟨g, hg⟩ := ih hbelow
        exact ⟨g, .single hg⟩
  | link hl hr ihl ihr =>
      -- A tighter sign belongs to the last operand of the chain.
      obtain heq | hbelow := Stratum.eq_or_level_le_below (s := .chain c) hle
      · cases heq
        exact ⟨_, .link (.link hl hr) hnext⟩
      · obtain ⟨g, hg⟩ := ihr hbelow
        rw [List.append_assoc, List.cons_append]
        exact ⟨_, .link hl hg⟩

/-- Operands joined by signs that a stratum allows are a phrase of it. -/
theorem exists_derives_joined (first : Phrase .operand)
    (links : List (Connective × Phrase .operand)) (hle : ∀ l ∈ links, l.1.level ≤ s.level) :
    ∃ f, Derives s (first.joined links) f := by
  induction links using List.reverseRecOn with
  | nil =>
      rw [Phrase.joined_nil]
      exact ⟨first.tree, first.derives.mono (Nat.zero_le _)⟩
  | append_singleton links last ih =>
      obtain ⟨f, hf⟩ := ih fun l hl => hle l (List.mem_append_left _ hl)
      rw [Phrase.joined_append, Phrase.joined_nil]
      exact hf.exists_append (hle last (List.mem_append_right _ List.mem_cons_self)) last.2

/-- Operands joined by signs come apart at the last of the loosest signs. -/
theorem derives_joined (first next : Phrase .operand) (c : Connective)
    (before after : List (Connective × Phrase .operand))
    (hbefore : ∀ l ∈ before, l.1.level ≤ c.level) (hafter : ∀ l ∈ after, l.1.level < c.level) :
    ∃ l r, Derives (.chain c) (first.joined before) l ∧ Derives (.below c) (next.joined after) r ∧
      Derives (.chain c) (first.joined (before ++ (c, next) :: after)) (.binary c l r) := by
  obtain ⟨l, hl⟩ := exists_derives_joined (s := .chain c) first before hbefore
  have hbelow : ∀ x ∈ after, x.1.level ≤ (Stratum.below c).level := fun x hx =>
    (Stratum.le_level_below_iff (.chain x.1) c).2 (hafter x hx)
  obtain ⟨r, hr⟩ := exists_derives_joined next after hbelow
  refine ⟨l, r, hl, hr, ?_⟩
  rw [Phrase.joined_append]
  exact .link hl hr

/-! ## Two signs -/

section Two

variable {a b : Connective} (x y z : Phrase .operand)

theorem derives_binary (c : Connective) :
    Derives (.chain c) (x.tokens ++ .connective c :: y.tokens) (.binary c x.tree y.tree) :=
  .link (x.derives.mono (Nat.zero_le _)) (y.derives.mono (Nat.zero_le _))

theorem derives_tighter_first (h : a.level < b.level) :
    Derives (.chain b) (x.joined [(a, y), (b, z)])
      (.binary b (.binary a x.tree y.tree) z.tree) := by
  have hxy : Derives (.chain b) (x.tokens ++ .connective a :: y.tokens)
      (.binary a x.tree y.tree) := (derives_binary x y a).mono (Nat.le_of_lt h)
  have hz : Derives (.below b) z.tokens z.tree := z.derives.mono (Nat.zero_le _)
  have htokens : x.joined [(a, y), (b, z)] =
      (x.tokens ++ .connective a :: y.tokens) ++ .connective b :: z.tokens := by
    simp [Phrase.joined]
  rw [htokens]
  exact .link hxy hz

theorem derives_tighter_last (h : a.level < b.level) :
    Derives (.chain b) (x.joined [(b, y), (a, z)])
      (.binary b x.tree (.binary a y.tree z.tree)) := by
  have hx : Derives (.chain b) x.tokens x.tree := x.derives.mono (Nat.zero_le _)
  have hle : (Stratum.chain a).level ≤ (Stratum.below b).level :=
    (Stratum.le_level_below_iff (.chain a) b).2 h
  have hyz : Derives (.below b) (y.tokens ++ .connective a :: z.tokens)
      (.binary a y.tree z.tree) := (derives_binary y z a).mono hle
  have htokens : x.joined [(b, y), (a, z)] =
      x.tokens ++ .connective b :: (y.tokens ++ .connective a :: z.tokens) := by
    simp [Phrase.joined]
  rw [htokens]
  exact .link hx hyz

end Two

end Sentential.Formula
