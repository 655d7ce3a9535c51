import Sentential.Formula.Parser
import Sentential.Proofs.Grammar

/-!
# Climbing reads the grammar

The reader does not follow the rules of the grammar. It has one loop for the
four chains and a number, the ceiling, for where to stop. The first section
says once what each of its three functions reads; nothing after it opens a
definition of the reader.

Soundness is about the loop. Its formula so far is a phrase of some stratum,
not looser than the ceiling, and the sign that follows is not tighter than
that stratum: the operand just read took every tighter sign with it, since it
stopped under a ceiling of its own. So the sign may extend the phrase.

Completeness is by the rules. A phrase is read back whatever follows it, as
long as what follows would stop the last operand of the phrase; the reader
then stands in the loop with the phrase's tree, under any ceiling that admits
the stratum.
-/

namespace Sentential.Formula

/-! ## What a step reads -/

/-- The step reads the formula and leaves the tokens. -/
def Reads {bound : Nat} (step : Except ParseError (Reading bound)) (f : Formula)
    (rest : List Located) : Prop :=
  ∃ within, step = .ok ⟨f, rest, within⟩

variable {f g l : Formula} {ts rest : List Located} {n i : Nat}

theorem Reads.length_lt {bound : Nat} {step : Except ParseError (Reading bound)}
    (h : Reads step f rest) : rest.length < bound := by
  obtain ⟨within, -⟩ := h
  exact within

theorem not_reads_error {bound : Nat} (e : ParseError) :
    ¬ Reads (.error e : Except ParseError (Reading bound)) f rest := by
  intro h
  obtain ⟨_, heq⟩ := h
  cases heq

theorem reads_ok_iff {bound : Nat} {r : Reading bound} :
    Reads (.ok r) f rest ↔ f = r.formula ∧ rest = r.rest := by
  constructor
  · intro h
    obtain ⟨_, heq⟩ := h
    cases heq
    exact ⟨rfl, rfl⟩
  · intro h
    cases h.1
    cases h.2
    exact ⟨r.within, rfl⟩

/-- One step after another. -/
theorem exists_reads_ok_iff {bound : Nat} {r : Reading bound}
    {p : Formula → List Located → Prop} :
    (∃ g us, Reads (.ok r) g us ∧ p g us) ↔ p r.formula r.rest := by
  constructor
  · intro h
    obtain ⟨g, us, hr, hp⟩ := h
    obtain ⟨hg, hus⟩ := reads_ok_iff.1 hr
    subst hg hus
    exact hp
  · intro h
    exact ⟨r.formula, r.rest, ⟨r.within, rfl⟩, h⟩

theorem not_reads_operand_nil : ¬ Reads (operand []) f rest := by
  rw [operand.eq_def]
  exact not_reads_error _

theorem reads_operand_atom {a : Atom} :
    Reads (operand ((.atom a, i) :: ts)) f rest ↔ f = .atom a ∧ rest = ts := by
  rw [operand.eq_def]
  exact reads_ok_iff

theorem reads_operand_not :
    Reads (operand ((.not, i) :: ts)) f rest ↔
      ∃ g, Reads (climb Connective.negationLevel ts) g rest ∧ f = .not g := by
  rw [operand.eq_def]
  simp only []
  cases climb Connective.negationLevel ts with
  | error e => simp only [not_reads_error, false_and, exists_false]
  | ok r =>
      simp only [reads_ok_iff]
      constructor
      · intro h
        exact ⟨r.formula, ⟨rfl, h.2⟩, h.1⟩
      · intro h
        obtain ⟨g, hg, hf⟩ := h
        exact ⟨hg.1 ▸ hf, hg.2⟩

theorem reads_operand_opening :
    Reads (operand ((.opening, i) :: ts)) f rest ↔
      ∃ j, Reads (climb Connective.maxLevel ts) f ((.closing, j) :: rest) := by
  rw [operand.eq_def]
  simp only []
  cases climb Connective.maxLevel ts with
  | error e => simp only [not_reads_error, exists_false]
  | ok r =>
      obtain ⟨g, us, within⟩ := r
      cases us with
      | nil => simp [reads_ok_iff, not_reads_error]
      | cons u after =>
          obtain ⟨t, j⟩ := u
          cases t with
          | closing =>
              simp only [reads_ok_iff, List.cons.injEq, Prod.mk.injEq, true_and]
              constructor
              · intro h
                exact ⟨j, h.1, rfl, h.2⟩
              · intro h
                obtain ⟨_, hf, _, hrest⟩ := h
                exact ⟨hf, hrest⟩
          | atom _ | not | connective _ | opening => simp [reads_ok_iff, not_reads_error]

theorem not_reads_operand_closing : ¬ Reads (operand ((.closing, i) :: ts)) f rest := by
  rw [operand.eq_def]
  exact not_reads_error _

theorem not_reads_operand_connective {c : Connective} :
    ¬ Reads (operand ((.connective c, i) :: ts)) f rest := by
  rw [operand.eq_def]
  exact not_reads_error _

theorem reads_climb :
    Reads (climb n ts) f rest ↔
      ∃ g us, Reads (operand ts) g us ∧ Reads (extend n g us) f rest := by
  rw [climb.eq_def]
  cases operand ts with
  | error e => simp only [not_reads_error, false_and, exists_false]
  | ok r =>
      rw [exists_reads_ok_iff]
      simp only []
      cases extend n r.formula r.rest with
      | error e => simp only [not_reads_error]
      | ok s => simp only [reads_ok_iff]

/-- The loop stops here under the ceiling: no sign follows, or a looser one. -/
def Halts (n : Nat) : List Located → Prop
  | [] => True
  | (.closing, _) :: _ => True
  | (.connective c, _) :: _ => n < c.level
  | (.atom _, _) :: _ => False
  | (.not, _) :: _ => False
  | (.opening, _) :: _ => False

theorem halts_nil (n : Nat) : Halts n [] := trivial

theorem halts_closing (n i : Nat) (ts : List Located) : Halts n ((.closing, i) :: ts) := trivial

theorem Halts.of_le {m : Nat} (h : Halts m ts) (hle : n ≤ m) : Halts n ts := by
  match ts with
  | [] | (.closing, _) :: _ => exact trivial
  | (.connective c, _) :: _ => exact Nat.lt_of_le_of_lt hle h
  | (.atom _, _) :: _ | (.not, _) :: _ | (.opening, _) :: _ => exact h

/-- What stops an operand of a chain behind a sign stops the operands of that
operand too. -/
theorem Halts.below {c : Connective} (h : Halts (c.level - 1) ts) :
    Halts ((Stratum.below c).level - 1) ts := by
  have hlt := Stratum.level_below_lt c
  exact h.of_le (by omega)

theorem reads_extend_of_halts (h : Halts n ts) :
    Reads (extend n l ts) f rest ↔ f = l ∧ rest = ts := by
  rw [extend.eq_def]
  match ts with
  | [] | (.closing, _) :: _ => exact reads_ok_iff
  | (.connective c, _) :: _ =>
      simp only [if_pos (show n < c.level from h)]
      exact reads_ok_iff
  | (.atom _, _) :: _ | (.not, _) :: _ | (.opening, _) :: _ => exact absurd h id

theorem reads_extend_self (h : Halts n ts) : Reads (extend n l ts) l ts :=
  (reads_extend_of_halts h).2 ⟨rfl, rfl⟩

theorem reads_extend_connective {c : Connective} (h : c.level ≤ n) :
    Reads (extend n l ((.connective c, i) :: ts)) f rest ↔
      ∃ r us, Reads (climb (c.level - 1) ts) r us ∧
        Reads (extend n (.binary c l r) us) f rest := by
  rw [extend.eq_def]
  simp only [if_neg (Nat.not_lt_of_le h)]
  cases climb (c.level - 1) ts with
  | error e => simp only [not_reads_error, false_and, exists_false]
  | ok r =>
      rw [exists_reads_ok_iff]
      simp only []
      cases extend n (.binary c l r.formula) r.rest with
      | error e => simp only [not_reads_error]
      | ok s => simp only [reads_ok_iff]

theorem exists_connective_of_reads_extend (h : Reads (extend n l ts) f rest)
    (hn : ¬ Halts n ts) : ∃ c i us, ts = (.connective c, i) :: us ∧ c.level ≤ n := by
  rw [extend.eq_def] at h
  match ts with
  | [] | (.closing, _) :: _ => exact absurd trivial hn
  | (.connective c, i) :: us => exact ⟨c, i, us, rfl, Nat.le_of_not_lt hn⟩
  | (.atom _, _) :: _ | (.not, _) :: _ | (.opening, _) :: _ => exact absurd h (not_reads_error _)

/-! ## What is read is a phrase -/

/-- The ceiling lets the connectives of the stratum pass, and no others. -/
def Stratum.HasCeiling (s : Stratum) (n : Nat) : Prop :=
  ∀ c : Connective, c.level ≤ n ↔ c.level ≤ s.level

namespace Stratum

theorem hasCeiling_negationLevel : operand.HasCeiling Connective.negationLevel := by
  intro c
  cases c <;> decide

theorem hasCeiling_maxLevel : (chain .iff).HasCeiling Connective.maxLevel := by
  intro c
  cases c <;> decide

theorem hasCeiling_below (c : Connective) : (below c).HasCeiling (c.level - 1) := by
  intro d
  cases c <;> cases d <;> decide

end Stratum

/-- Two ceilings of one stratum stop the loop at the same places. -/
theorem Halts.of_hasCeiling {s : Stratum} {m : Nat} (h : Halts m ts) (hm : s.HasCeiling m)
    (hn : s.HasCeiling n) : Halts n ts := by
  match ts with
  | [] | (.closing, _) :: _ => exact trivial
  | (.connective c, _) :: _ =>
      have hlt : ¬ c.level ≤ m := Nat.not_le_of_lt h
      exact Nat.lt_of_not_le (mt (fun hle => (hm c).2 ((hn c).1 hle)) hlt)
  | (.atom _, _) :: _ | (.not, _) :: _ | (.opening, _) :: _ => exact h

/-- The sign that follows, if any, may extend a phrase of the stratum. -/
def Extends (s : Stratum) (ts : List Located) : Prop :=
  ∀ c i us, ts = (.connective c, i) :: us → s.level ≤ c.level

theorem Halts.extends {c : Connective} (h : Halts (c.level - 1) ts) :
    Extends (.chain c) ts := by
  intro d i us hts
  rw [hts] at h
  have hd : c.level - 1 < d.level := h
  show c.level ≤ d.level
  omega

mutual

theorem derives_of_reads_operand {ts rest : List Located} {f : Formula}
    (h : Reads (operand ts) f rest) :
    ∃ us, ts = us ++ rest ∧ Derives .operand (us.map Prod.fst) f := by
  match ts with
  | [] => exact absurd h not_reads_operand_nil
  | (.atom a, i) :: ts =>
      obtain ⟨hf, hrest⟩ := reads_operand_atom.1 h
      rw [hf, hrest]
      exact ⟨[(.atom a, i)], rfl, .atom a⟩
  | (.not, i) :: ts =>
      obtain ⟨g, hg, hf⟩ := reads_operand_not.1 h
      obtain ⟨us, hts, hd, _⟩ := derives_of_reads_climb Stratum.hasCeiling_negationLevel hg
      rw [hf, hts]
      exact ⟨(.not, i) :: us, rfl, .not hd⟩
  | (.opening, i) :: ts =>
      obtain ⟨j, hg⟩ := reads_operand_opening.1 h
      obtain ⟨us, hts, hd, _⟩ := derives_of_reads_climb Stratum.hasCeiling_maxLevel hg
      refine ⟨(.opening, i) :: (us ++ [(.closing, j)]), ?_, ?_⟩
      · rw [hts, List.cons_append, List.append_assoc, List.singleton_append]
      · rw [List.map_cons, List.map_append]
        exact .group hd
  | (.closing, _) :: _ => exact absurd h not_reads_operand_closing
  | (.connective _, _) :: _ => exact absurd h not_reads_operand_connective
termination_by (ts.length, 0)

theorem derives_of_reads_climb {s : Stratum} {n : Nat} {ts rest : List Located} {f : Formula}
    (hn : s.HasCeiling n) (h : Reads (climb n ts) f rest) :
    ∃ us, ts = us ++ rest ∧ Derives s (us.map Prod.fst) f ∧ Halts n rest := by
  obtain ⟨g, us, hg, hf⟩ := reads_climb.1 h
  have hlt : us.length < ts.length := hg.length_lt
  obtain ⟨vs, hts, hd⟩ := derives_of_reads_operand hg
  -- Any sign may follow an operand.
  obtain ⟨ws, hus, hd', hhalts⟩ := derives_of_reads_extend (t := .operand) hn hd
    (Nat.zero_le _) (fun _ _ _ _ => Nat.zero_le _) hf
  refine ⟨vs ++ ws, ?_, ?_, hhalts⟩
  · rw [hts, hus, List.append_assoc]
  · rw [List.map_append]
    exact hd'
termination_by (ts.length, 1)

theorem derives_of_reads_extend {s t : Stratum} {n : Nat} {read : List Token} {l f : Formula}
    {ts rest : List Located} (hn : s.HasCeiling n) (hl : Derives t read l)
    (hle : t.level ≤ s.level) (hextends : Extends t ts) (h : Reads (extend n l ts) f rest) :
    ∃ us, ts = us ++ rest ∧ Derives s (read ++ us.map Prod.fst) f ∧ Halts n rest := by
  by_cases hhalts : Halts n ts
  · obtain ⟨hf, hrest⟩ := (reads_extend_of_halts hhalts).1 h
    refine ⟨[], hrest.symm, ?_, hrest ▸ hhalts⟩
    rw [hf, List.map_nil, List.append_nil]
    exact hl.mono hle
  · obtain ⟨c, i, us, hts, hc⟩ := exists_connective_of_reads_extend h hhalts
    rw [hts] at h
    obtain ⟨r, vs, hr, hf⟩ := (reads_extend_connective hc).1 h
    have hus : us.length < ts.length := hts ▸ Nat.lt_succ_self us.length
    have hvs : vs.length < us.length := hr.length_lt
    obtain ⟨ws, hws, hd, hbelow⟩ := derives_of_reads_climb (Stratum.hasCeiling_below c) hr
    -- Now the formula is a chain of `c`, and no tighter sign follows.
    have hbinary : Derives (.chain c) (read ++ .connective c :: ws.map Prod.fst)
        (.binary c l r) := .link (hl.mono (hextends c i us hts)) hd
    obtain ⟨xs, hxs, hd', hrest⟩ := derives_of_reads_extend hn hbinary ((hn c).1 hc)
      hbelow.extends hf
    refine ⟨(.connective c, i) :: (ws ++ xs), ?_, ?_, hrest⟩
    · rw [hts, hws, hxs, List.cons_append, List.append_assoc]
    · rw [List.map_cons, List.map_append, ← List.cons_append, ← List.append_assoc]
      exact hd'
termination_by (ts.length, 0)

end

/-! ## A phrase is read back -/

/-- Under a ceiling that admits its stratum a phrase is read, and then the
loop goes on with its tree. -/
theorem Derives.reads {s : Stratum} {read : List Token} (h : Derives s read f)
    {us tail : List Located} (hread : us.map Prod.fst = read) (hle : s.level ≤ n)
    (htail : Halts (s.level - 1) tail) (hextend : Reads (extend n f tail) g rest) :
    Reads (climb n (us ++ tail)) g rest := by
  induction h generalizing us tail rest g n with
  | atom a =>
      obtain ⟨⟨t, i⟩, us, rfl, ht, hnil⟩ := List.map_eq_cons_iff.1 hread
      cases ht
      rw [List.map_eq_nil_iff.1 hnil]
      exact reads_climb.2 ⟨.atom a, tail, reads_operand_atom.2 ⟨rfl, rfl⟩, hextend⟩
  | @not ts f h ih =>
      obtain ⟨⟨t, i⟩, us, rfl, ht, hus⟩ := List.map_eq_cons_iff.1 hread
      cases ht
      have hhalts : Halts Connective.negationLevel tail :=
        htail.of_hasCeiling (s := .operand) (fun _ => Iff.rfl) Stratum.hasCeiling_negationLevel
      have hf : Reads (climb Connective.negationLevel (us ++ tail)) f tail :=
        ih hus (Nat.zero_le _) htail (reads_extend_self hhalts)
      exact reads_climb.2 ⟨.not f, tail, reads_operand_not.2 ⟨f, hf, rfl⟩, hextend⟩
  | @group ts f h ih =>
      obtain ⟨⟨t, i⟩, us, rfl, ht, hus⟩ := List.map_eq_cons_iff.1 hread
      cases ht
      obtain ⟨vs, ws, rfl, hvs, hws⟩ := List.map_eq_append_iff.1 hus
      obtain ⟨⟨t, j⟩, ws, rfl, ht, hnil⟩ := List.map_eq_cons_iff.1 hws
      cases ht
      rw [List.map_eq_nil_iff.1 hnil, List.cons_append, List.append_assoc]
      have hf : Reads (climb Connective.maxLevel (vs ++ (.closing, j) :: tail)) f
          ((.closing, j) :: tail) :=
        ih hvs (by decide) (halts_closing _ j tail)
          (reads_extend_self (halts_closing _ j tail))
      exact reads_climb.2 ⟨f, tail, reads_operand_opening.2 ⟨j, hf⟩, hextend⟩
  | @single c ts f h ih =>
      have hbelow : (Stratum.below c).level ≤ n :=
        Nat.le_trans (Nat.le_of_lt (Stratum.level_below_lt c)) hle
      exact ih hread hbelow (Halts.below htail) hextend
  | @link c ls rs l r hl hr ihl ihr =>
      obtain ⟨us, vs, rfl, hus, hvs⟩ := List.map_eq_append_iff.1 hread
      obtain ⟨⟨t, i⟩, vs, rfl, ht, hrs⟩ := List.map_eq_cons_iff.1 hvs
      cases ht
      rw [List.append_assoc, List.cons_append]
      have hsign : Halts (c.level - 1) ((.connective c, i) :: (vs ++ tail)) :=
        Nat.sub_lt (Stratum.one_le_level c) Nat.one_pos
      have hright : Reads (climb (c.level - 1) (vs ++ tail)) r tail :=
        ihr hrs (Nat.le_sub_one_of_lt (Stratum.level_below_lt c)) (Halts.below htail)
          (reads_extend_self htail)
      -- The sign does not stop the loop that reads the left side, it goes on with it.
      exact ihl hus hle hsign ((reads_extend_connective hle).2 ⟨r, tail, hright, hextend⟩)

/-! ## The whole text -/

theorem ofTokens_eq_ok_iff {read : List Token} :
    ofTokens read = .ok f ↔ Reads (climb Connective.maxLevel read.zipIdx) f [] := by
  unfold ofTokens
  match climb Connective.maxLevel read.zipIdx with
  | .error e => simp only [not_reads_error, reduceCtorEq]
  | .ok ⟨g, [], _⟩ =>
      simp only [reads_ok_iff, Except.ok.injEq, and_true]
      exact eq_comm
  | .ok ⟨g, _ :: _, _⟩ => simp only [reads_ok_iff, reduceCtorEq, and_false]

/-- The reader accepts the phrases of the loosest stratum and gives their trees. -/
theorem ofTokens_eq_ok_iff_derives {read : List Token} :
    ofTokens read = .ok f ↔ Derives (.chain .iff) read f := by
  have hmap : read.zipIdx.map Prod.fst = read := List.zipIdx_map_fst 0 read
  rw [ofTokens_eq_ok_iff]
  constructor
  · intro h
    obtain ⟨us, hus, hd, _⟩ := derives_of_reads_climb Stratum.hasCeiling_maxLevel h
    rw [List.append_nil] at hus
    rw [← hmap, hus]
    exact hd
  · intro h
    have hread : Reads (climb Connective.maxLevel (read.zipIdx ++ [])) f [] :=
      h.reads hmap (by decide) (halts_nil _) (reads_extend_self (halts_nil _))
    rw [List.append_nil] at hread
    exact hread

theorem Derives.ofTokens_eq {s : Stratum} {read : List Token} (h : Derives s read f) :
    ofTokens read = .ok f :=
  ofTokens_eq_ok_iff_derives.2 (h.mono (Stratum.level_le_iff s))

/-- A text of tokens has one tree at most, in whatever stratum. -/
theorem Derives.unique {s t : Stratum} {read : List Token} (hf : Derives s read f)
    (hg : Derives t read g) : f = g :=
  Except.ok.inj (hf.ofTokens_eq.symm.trans hg.ofTokens_eq)

/-- Tokens are read exactly if they are a phrase of the grammar, with the one
tree that they have in it. So negation binds tighter than any sign, of two
signs the earlier in the list binds tighter on either side of the other, a
chain of one connective folds to the left whatever its operands are, and
operands under any mixture of signs come apart at the last of the loosest. -/
theorem ofTokens_reads_the_grammar :
    (∀ read f, ofTokens read = .ok f ↔ Derives (.chain .iff) read f) ∧
    (∀ read f g, Derives (.chain .iff) read f → Derives (.chain .iff) read g → f = g) ∧
    (∀ (c : Connective) (x y : Phrase .operand),
      ofTokens (.not :: x.tokens ++ .connective c :: y.tokens) =
        .ok (.binary c (.not x.tree) y.tree)) ∧
    (∀ (a b : Connective) (x y z : Phrase .operand),
      [a, b].Sublist [.and, .or, .imply, .iff] →
      ofTokens (x.joined [(a, y), (b, z)]) = .ok (.binary b (.binary a x.tree y.tree) z.tree) ∧
      ofTokens (x.joined [(b, y), (a, z)]) = .ok (.binary b x.tree (.binary a y.tree z.tree))) ∧
    (∀ (c : Connective) (first : Phrase (.below c)) (others : List (Phrase (.below c))),
      ofTokens (first.joined (others.map (c, ·))) =
        .ok (others.foldl (fun l p => .binary c l p.tree) first.tree)) ∧
    (∀ (c : Connective) (first next : Phrase .operand)
      (before after : List (Connective × Phrase .operand)),
      (∀ l ∈ before, l.1.level ≤ c.level) → (∀ l ∈ after, l.1.level < c.level) →
      ∃ l r, ofTokens (first.joined before) = .ok l ∧ ofTokens (next.joined after) = .ok r ∧
        ofTokens (first.joined (before ++ (c, next) :: after)) = .ok (.binary c l r)) := by
  refine ⟨fun read f => ofTokens_eq_ok_iff_derives, fun read f g hf hg => hf.unique hg,
    ?_, ?_, ?_, ?_⟩
  · intro c x y
    exact (derives_binary ⟨.not :: x.tokens, .not x.tree, .not x.derives⟩ y c).ofTokens_eq
  · intro a b x y z hab
    have hlt : a.level < b.level := by
      revert hab
      cases a <;> cases b <;> decide
    exact ⟨(derives_tighter_first x y z hlt).ofTokens_eq,
      (derives_tighter_last x y z hlt).ofTokens_eq⟩
  · intro c first others
    exact (derives_chain_iff.2 ⟨first, others, rfl, rfl⟩).ofTokens_eq
  · intro c first next before after hbefore hafter
    obtain ⟨l, r, hl, hr, h⟩ := derives_joined first next c before after hbefore hafter
    exact ⟨l, r, hl.ofTokens_eq, hr.ofTokens_eq, h.ofTokens_eq⟩

/-- `A -> B & C -> D` is a conditional of a conditional. -/
theorem ofTokens_reads_the_grammar_conditionals :
    ofTokens [.atom ⟨'A'⟩, .connective .imply, .atom ⟨'B'⟩, .connective .and, .atom ⟨'C'⟩,
        .connective .imply, .atom ⟨'D'⟩] =
      .ok (.binary .imply
        (.binary .imply (.atom ⟨'A'⟩) (.binary .and (.atom ⟨'B'⟩) (.atom ⟨'C'⟩)))
        (.atom ⟨'D'⟩)) := by
  have hletter : ∀ a : Atom, Derives (.below .imply) [.atom a] (.atom a) :=
    fun a => (Derives.atom a).mono (Nat.zero_le _)
  have hand : Derives (.below .imply) [.atom ⟨'B'⟩, .connective .and, .atom ⟨'C'⟩]
      (.binary .and (.atom ⟨'B'⟩) (.atom ⟨'C'⟩)) :=
    (derives_binary ⟨_, _, .atom ⟨'B'⟩⟩ ⟨_, _, .atom ⟨'C'⟩⟩ .and).mono (by decide)
  exact ofTokens_reads_the_grammar.2.2.2.2.1 .imply ⟨_, _, hletter ⟨'A'⟩⟩
    [⟨_, _, hand⟩, ⟨_, _, hletter ⟨'D'⟩⟩]

end Sentential.Formula
