import Mathlib.Algebra.Group.Nat.Defs
import Sentential.Proofs.CrossProduct
import Sentential.Proofs.NegationNormal

/-!
# Both rewritings end

Said plainly, neither rewriting runs down its argument. Of a biconditional the
first makes two conditionals and goes on with those. The second normalises the
two sides of a disjunction, splits one of the results, and normalises the
disjunctions of its parts with the other result in their turn, operands that
may have grown exponentially and are passed on twice.

`pushNegation` and `distribute` hide both: the one has the two conditionals
multiplied out already, the other leaves the splitting to `disjoin`, which
trusts the parts to be normal. So the recursions are written out here, one call
at a time, with the calls that a call makes as a parameter. They are run with a
bound on how many calls may be nested, without an answer where the bound is too
small, and they are read as equations, which whatever runs them satisfies.

What bounds the second recursion is not the size. A copy of an operand always
lands on another side of a conjunction than the first one, so a measure that
takes the larger side of a conjunction and adds up over a disjunction does not
see the copies: distribution keeps this weight (`weight_distribute`), and every
call has an argument of less weight than the call that makes it. The weight is
at most the number of literals, however large the result.
-/

namespace Sentential.Formula

/-! ## Pushing a negation down -/

/-- One call of the recursion that pushes a negation down; the calls it makes go
to `call`. -/
def pushCalling (call : Bool → Formula → Option Formula) (sign : Bool) :
    Formula → Option Formula
  | atom a => some (if sign then atom a else a.negation)
  | not f => call (!sign) f
  | binary .and l r => do
    return binary (if sign then .and else .or) (← call sign l) (← call sign r)
  | binary .or l r => do
    return binary (if sign then .or else .and) (← call sign l) (← call sign r)
  | binary .imply l r => do
    return binary (if sign then .or else .and) (← call (!sign) l) (← call sign r)
  | binary .iff l r => do
    return binary (if sign then .and else .or)
      (← call sign (binary .imply l r)) (← call sign (binary .imply r l))

/-- The recursion with at most `n` calls nested. -/
def pushWithin : Nat → Bool → Formula → Option Formula
  | 0, _, _ => none
  | n + 1, sign, f => pushCalling (pushWithin n) sign f

/-- The height of a formula. A biconditional counts twice, once for itself and
once for the conditionals that are made of it. -/
def nesting : Formula → Nat
  | atom _ => 1
  | not f => f.nesting + 1
  | binary .iff l r => max l.nesting r.nesting + 2
  | binary _ l r => max l.nesting r.nesting + 1

theorem one_le_nesting (f : Formula) : 1 ≤ f.nesting := by
  fun_cases nesting f <;> omega

/-- A call returns if those do that are about formulas of less nesting. -/
theorem pushCalling_eq {call : Bool → Formula → Option Formula} {f : Formula}
    (h : ∀ s g, g.nesting < f.nesting → call s g = some (g.pushNegation s)) (sign : Bool) :
    pushCalling call sign f = some (f.pushNegation sign) := by
  cases f with
  | atom a => rfl
  | not f => exact h (!sign) f (Nat.lt_succ_self _)
  | binary c l r =>
      have hlt : max l.nesting r.nesting < (binary c l r).nesting := by
        cases c <;> simp only [nesting] <;> omega
      have hl : ∀ s, call s l = some (l.pushNegation s) := fun s => h s l (by omega)
      have hr : ∀ s, call s r = some (r.pushNegation s) := fun s => h s r (by omega)
      cases c with
      | and | or | imply =>
          rw [pushCalling, hl, hr]
          rfl
      | iff =>
          have hforward : call sign (binary .imply l r) =
              some ((binary .imply l r).pushNegation sign) :=
            h sign _ (by simp only [nesting]; omega)
          have hbackward : call sign (binary .imply r l) =
              some ((binary .imply r l).pushNegation sign) :=
            h sign _ (by simp only [nesting]; omega)
          rw [pushCalling, hforward, hbackward]
          rfl

theorem pushWithin_eq {n : Nat} {f : Formula} (h : f.nesting ≤ n) (sign : Bool) :
    pushWithin n sign f = some (f.pushNegation sign) := by
  induction n generalizing f sign with
  | zero => exact absurd h (Nat.not_le_of_lt (one_le_nesting f))
  | succ n ih => exact pushCalling_eq (fun s g hg => ih (by omega) s) sign

/-- Without a bound: the recursion has one solution, and that returns always. -/
theorem solves_pushCalling_iff {call : Bool → Formula → Option Formula} :
    (∀ sign f, call sign f = pushCalling call sign f) ↔
      ∀ sign f, call sign f = some (f.pushNegation sign) := by
  constructor
  · intro hcall sign f
    -- On the nesting, since the calls about a biconditional are not about its parts.
    induction hf : f.nesting using Nat.strongRecOn generalizing f sign with
    | ind n ih =>
        rw [hcall]
        exact pushCalling_eq (fun s g hg => ih g.nesting (hf ▸ hg) s g rfl) sign
  · intro hcall sign f
    rw [hcall, pushCalling_eq fun s g _ => hcall s g]

/-! ## Distribution -/

/-- What is left of a call about a disjunction when both its sides are normal. -/
def disjoinCalling (call : Formula → Option Formula) : Formula → Formula → Option Formula
  | binary .and a b, other | other, binary .and a b => do
    return binary .and (← call (binary .or a other)) (← call (binary .or b other))
  | x, y => some (binary .or x y)

/-- One call of the recursion that distributes; the calls it makes go to `call`. -/
def distributeCalling (call : Formula → Option Formula) : Formula → Option Formula
  | binary .and l r => do return binary .and (← call l) (← call r)
  | binary .or l r => do disjoinCalling call (← call l) (← call r)
  | f => some f

/-- The recursion with at most `n` calls nested. -/
def distributeWithin : Nat → Formula → Option Formula
  | 0, _ => none
  | n + 1, f => distributeCalling (distributeWithin n) f

/-- A disjunction weighs as much as its two sides, a conjunction one more than
the heavier side. -/
def weight : Formula → Nat
  | binary .and l r => max l.weight r.weight + 1
  | binary .or l r => l.weight + r.weight
  | _ => 1

theorem one_le_weight (f : Formula) : 1 ≤ f.weight := by
  fun_induction weight f <;> omega

theorem weight_disjoin (l r : Formula) : (disjoin l r).weight = l.weight + r.weight := by
  fun_induction disjoin l r with
  | case1 a b other iha ihb =>
      simp only [weight, iha, ihb]
      omega
  | case2 other a b _ iha ihb =>
      simp only [weight, iha, ihb]
      omega
  | case3 l r _ _ => rfl

theorem weight_distribute (f : Formula) : f.distribute.weight = f.weight := by
  fun_induction distribute f with
  | case1 l r ihl ihr => simp only [weight, ihl, ihr]
  | case2 l r ihl ihr => simp only [weight_disjoin, weight, ihl, ihr]
  | case3 f _ _ => rfl

/-- A call about the disjunction of two normal forms, light enough to return. -/
theorem call_or_eq {call : Formula → Option Formula} {x y : Formula} {n : Nat}
    (hx : x.distribute = x) (hy : y.distribute = y)
    (h : ∀ g, g.weight < n → call g = some g.distribute) (hlt : x.weight + y.weight < n) :
    call (binary .or x y) = some (disjoin x y) := by
  rw [h (binary .or x y) hlt, distribute, hx, hy]

/-- Of two normal sides the split one loses weight, and the other keeps its own. -/
theorem disjoinCalling_eq {call : Formula → Option Formula} {x y : Formula}
    (hx : x.distribute = x) (hy : y.distribute = y)
    (h : ∀ g, g.weight < x.weight + y.weight → call g = some g.distribute) :
    disjoinCalling call x y = some (disjoin x y) := by
  fun_cases disjoinCalling call x y with
  | case1 a b =>
      obtain ⟨ha, hb⟩ := distribute_and_eq_self hx
      have hweight : (binary .and a b).weight = max a.weight b.weight + 1 := rfl
      rw [call_or_eq ha hy h (by omega), call_or_eq hb hy h (by omega), disjoin]
      rfl
  | case2 _ a b hne =>
      obtain ⟨ha, hb⟩ := distribute_and_eq_self hy
      have hweight : (binary .and a b).weight = max a.weight b.weight + 1 := rfl
      rw [call_or_eq ha hx h (by omega), call_or_eq hb hx h (by omega), disjoin]
      · rfl
      · exact hne
  | case3 _ _ hnx hny =>
      rw [disjoin]
      · exact hnx
      · exact hny

/-- A call returns if those do that are about formulas of less weight. -/
theorem distributeCalling_eq {call : Formula → Option Formula} {f : Formula}
    (h : ∀ g, g.weight < f.weight → call g = some g.distribute) :
    distributeCalling call f = some f.distribute := by
  fun_cases distributeCalling call f with
  | case1 l r =>
      rw [h l (by simp only [weight]; omega), h r (by simp only [weight]; omega)]
      rfl
  | case2 l r =>
      have hl := one_le_weight l
      have hr := one_le_weight r
      rw [h l (by simp only [weight]; omega), h r (by simp only [weight]; omega)]
      refine disjoinCalling_eq (distribute_distribute l) (distribute_distribute r)
        fun g hg => h g ?_
      rw [weight_distribute, weight_distribute] at hg
      exact hg
  | case3 f hand hor =>
      rw [distribute]
      · exact hand
      · exact hor

theorem distributeWithin_eq {n : Nat} {f : Formula} (h : f.weight ≤ n) :
    distributeWithin n f = some f.distribute := by
  induction n generalizing f with
  | zero => exact absurd h (Nat.not_le_of_lt (one_le_weight f))
  | succ n ih => exact distributeCalling_eq fun g hg => ih (by omega)

theorem solves_distributeCalling_iff {call : Formula → Option Formula} :
    (∀ f, call f = distributeCalling call f) ↔ ∀ f, call f = some f.distribute := by
  constructor
  · intro hcall f
    induction hf : f.weight using Nat.strongRecOn generalizing f with
    | ind n ih =>
        rw [hcall]
        exact distributeCalling_eq fun g hg => ih g.weight (hf ▸ hg) g rfl
  · intro hcall f
    rw [hcall, distributeCalling_eq fun g _ => hcall g]

theorem weight_le_length_literals {f : Formula} (h : f.IsNnf) :
    f.weight ≤ f.literals.length := by
  fun_induction literals f with
  | case1 a => exact Nat.le_refl 1
  | case2 a => exact Nat.le_refl 1
  | case3 f => exact False.elim h.1
  | case4 c l r => exact False.elim h.1
  | case5 c l r ihl ihr =>
      have hl := ihl h.2.1
      have hr := ihr h.2.2
      have hl1 := one_le_weight l
      have hr1 := one_le_weight r
      rw [List.length_append]
      rcases h.1 with rfl | rfl <;> simp only [weight] <;> omega

/-! ## The size of the operands passed on -/

/-- `A & B`. -/
def pair : Formula := binary .and (atom ⟨'A'⟩) (atom ⟨'B'⟩)

/-- `(A & B) | (A & B) | …` with `n + 1` conjunctions. -/
def pairs : Nat → Formula
  | 0 => pair
  | n + 1 => binary .or (pairs n) pair

theorem isNnf_pairs (n : Nat) : (pairs n).IsNnf := by
  induction n with
  | zero => decide
  | succ n ih => exact ⟨.inr rfl, ih, by decide⟩

theorem length_literals_pairs (n : Nat) : (pairs n).literals.length = 2 * (n + 1) := by
  induction n with
  | zero => rfl
  | succ n ih =>
      rw [pairs, literals, List.length_append, ih]
      rfl

/-- A side of the normal form has as many clauses as there are ways to pick a
letter from each conjunction but the first. -/
theorem exists_distribute_pairs (n : Nat) : ∃ a b,
    (pairs n).distribute = binary .and a b ∧ a.spine.length = 2 ^ n := by
  induction n with
  | zero => exact ⟨_, _, rfl, rfl⟩
  | succ n ih =>
      obtain ⟨a, b, hab, ha⟩ := ih
      refine ⟨disjoin a pair, disjoin b pair, ?_, ?_⟩
      · rw [pairs, distribute, hab, pair, distribute, disjoin]
        rfl
      · rw [spine_disjoin, length_crossed, ha, Nat.pow_succ]
        rfl

theorem length_spine_le_length_literals {f : Formula} (h : f.IsNnf) :
    f.spine.length ≤ f.literals.length := by
  fun_induction spine f with
  | case1 l r ihl ihr =>
      rw [literals, List.length_append, List.length_append]
      exact Nat.add_le_add (ihl h.2.1) (ihr h.2.2)
  | case2 f hf => exact Nat.le_trans (one_le_weight f) (weight_le_length_literals h)

/-- Both recursions end. From a well-formed formula and either sign the first
returns the negation normal form of the formula or of its negation, as soon as
the calls may be nested as deep as the formula is, a biconditional counted
twice. From a formula in negation normal form the second returns the
conjunctive normal form as soon as they may be nested as deep as it has
literals, although it calls itself with operands that are exponentially larger.
Read as equations for a function that may fail to return, each of them has one
solution, which returns always. -/
theorem rewritings_end :
    (∀ f : Formula, f.WellFormed → ∀ sign, ∃ g,
      (if sign then f else not f).negationNormal = .ok g ∧
      ∀ n, f.nesting ≤ n → pushWithin n sign f = some g) ∧
    (∀ f : Formula, f.IsNnf → ∃ g, f.conjunctiveNormal = .ok g ∧
      ∀ n, f.literals.length ≤ n → distributeWithin n f = some g) ∧
    (∀ n, ∃ l r a b, (binary .or l r).IsNnf ∧ (binary .or l r).literals.length = 2 * (n + 2) ∧
      l.distribute = binary .and a b ∧ 2 ^ n ≤ (binary .or a r.distribute).literals.length) ∧
    (∀ call, (∀ sign f, call sign f = pushCalling call sign f) ↔
      ∀ sign f, call sign f = some (f.pushNegation sign)) ∧
    ∀ call, (∀ f, call f = distributeCalling call f) ↔ ∀ f, call f = some f.distribute := by
  refine ⟨fun f hf sign => ?_, fun f hf => ?_, fun n => ?_,
    fun _ => solves_pushCalling_iff, fun _ => solves_distributeCalling_iff⟩
  · refine ⟨f.pushNegation sign, ?_, fun n hn => pushWithin_eq hn sign⟩
    cases sign with
    | true => exact negationNormal_eq hf
    | false => exact negationNormal_eq (f := not f) hf
  · exact ⟨_, conjunctiveNormal_eq hf, fun n hn =>
      distributeWithin_eq (Nat.le_trans (weight_le_length_literals hf) hn)⟩
  · obtain ⟨a, b, hab, ha⟩ := exists_distribute_pairs n
    have hnnf : (binary .and a b).IsNnf := hab ▸ (isCnf_distribute (isNnf_pairs n)).isNnf
    have hsize := length_spine_le_length_literals hnnf.2.1
    refine ⟨pairs n, pair, a, b, isNnf_pairs (n + 1), length_literals_pairs (n + 1), hab, ?_⟩
    rw [literals, List.length_append]
    omega

/-- `~(A <-> ~B)`, and `(A & B) | (C & ~D)`, where both sides are split. -/
theorem rewritings_end_square :
    pushWithin 4 false (binary .iff (atom ⟨'A'⟩) (not (atom ⟨'B'⟩))) =
      some (binary .or (binary .and (atom ⟨'A'⟩) (atom ⟨'B'⟩))
        (binary .and (not (atom ⟨'B'⟩)) (not (atom ⟨'A'⟩)))) ∧
    (binary .or (binary .and (atom ⟨'A'⟩) (atom ⟨'B'⟩))
        (binary .and (atom ⟨'C'⟩) (not (atom ⟨'D'⟩)))).conjunctiveNormal =
      .ok (binary .and
        (binary .and (binary .or (atom ⟨'C'⟩) (atom ⟨'A'⟩))
          (binary .or (not (atom ⟨'D'⟩)) (atom ⟨'A'⟩)))
        (binary .and (binary .or (atom ⟨'C'⟩) (atom ⟨'B'⟩))
          (binary .or (not (atom ⟨'D'⟩)) (atom ⟨'B'⟩)))) := by
  obtain ⟨hpush, hdistribute, -⟩ := rewritings_end
  obtain ⟨g, hg, hpushed⟩ := hpush (binary .iff (atom ⟨'A'⟩) (not (atom ⟨'B'⟩))) (by decide) false
  obtain ⟨x, hx, hdistributed⟩ := hdistribute (binary .or (binary .and (atom ⟨'A'⟩) (atom ⟨'B'⟩))
    (binary .and (atom ⟨'C'⟩) (not (atom ⟨'D'⟩)))) (by decide)
  constructor
  · rw [hpushed 4 (by decide), ← Except.ok.inj hg]
    rfl
  · rw [hx, ← Option.some.inj (hdistributed 4 (by decide))]

end Sentential.Formula
