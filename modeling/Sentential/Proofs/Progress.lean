import Sentential.Proofs.Climbing

/-!
# Reading makes progress

The reader hands on the tokens that are left together with a bound on their number, and
ends by that bound. A reader that keeps its place in one buffer hands on a cursor, and a
cursor has no bound. Nothing in the shape of that recursion says that it ends: its loop
goes on from wherever a call has left the cursor, and a call may look at a token and
leave it where it is.

So that reader is written out here (`readCalling`), with a turn of the loop as a call like
the others and the calls that a call makes as a parameter. It is run with a bound on how
many calls may be nested, without an answer where the bound is too small, and it is read
as an equation, which whatever runs it satisfies.

What makes it end is said of the tokens. An operand uses up a token, and so does whatever
begins with one; the loop alone may use up nothing, and then it stops, because it goes on
only over a sign, and behind a sign it reads a formula (`consumes_of_reads_climb`). The
three facts need one another and are proved together, with where the loop stops. Then every
call has fewer tokens before it than the call that makes it, or as many and the other one
was for a formula, which begins with an operand.
-/

namespace Sentential

open Formula

/-! ## Places in a buffer -/

/-- A buffer of tokens and a place in it, or beyond it. -/
structure Cursor where
  buffer : List Token
  position : Nat

namespace Cursor

/-- The token at the place, and the place behind it. -/
def next? (c : Cursor) : Option (Token × Cursor) :=
  c.buffer[c.position]?.map fun t => (t, ⟨c.buffer, c.position + 1⟩)

/-- The tokens from the place on. -/
def unread (c : Cursor) : List Located := c.buffer.zipIdx.drop c.position

/-- The place from which these are unread, where they are the last of the unread tokens. -/
def leaving (c : Cursor) (rest : List Located) : Cursor :=
  ⟨c.buffer, c.position + (c.unread.length - rest.length)⟩

variable {c : Cursor} {us rest : List Located}

theorem length_unread (c : Cursor) : c.unread.length = c.buffer.length - c.position := by
  simp [unread]

theorem next?_of_unread_nil (h : c.unread = []) : c.next? = none := by
  have hlength := c.length_unread
  rw [h, List.length_nil] at hlength
  rw [next?, List.getElem?_eq_none (by omega)]
  rfl

theorem getElem?_of_unread_cons {t : Token} {i : Nat} (h : c.unread = (t, i) :: rest) :
    i = c.position ∧ c.buffer[c.position]? = some t := by
  have hhead : c.buffer.zipIdx[c.position]? = some (t, i) := by
    rw [← List.head?_drop]
    exact congrArg List.head? h
  rw [List.getElem?_zipIdx] at hhead
  obtain ⟨u, hu, heq⟩ := Option.map_eq_some_iff.1 hhead
  cases heq
  exact ⟨Nat.zero_add _, hu⟩

theorem next?_of_unread_cons {t : Token} {i : Nat} (h : c.unread = (t, i) :: rest) :
    c.next? = some (t, c.leaving rest) := by
  have hplace : c.leaving rest = ⟨c.buffer, c.position + 1⟩ := by
    rw [leaving, h, List.length_cons]
    simp
  rw [next?, (getElem?_of_unread_cons h).2, hplace]
  rfl

theorem unread_leaving (h : rest <:+ c.unread) : (c.leaving rest).unread = rest := by
  have hdrop : rest = c.unread.drop (c.unread.length - rest.length) := List.suffix_iff_eq_drop.1 h
  rw [unread, leaving, ← List.drop_drop]
  exact hdrop.symm

theorem leaving_unread (c : Cursor) : c.leaving c.unread = c := by
  simp [leaving]

theorem leaving_leaving (hus : us <:+ c.unread) (hrest : rest <:+ us) :
    (c.leaving us).leaving rest = c.leaving rest := by
  have hle := hus.length_le
  have hle' := hrest.length_le
  have hposition : (c.leaving us).position + (us.length - rest.length) =
      c.position + (c.unread.length - rest.length) := by
    simp only [leaving]
    omega
  rw [leaving, unread_leaving hus, hposition]
  rfl

end Cursor

/-! ## The reader with a cursor -/

namespace Formula

/-- What the reader can be called for: an operand, a formula under a ceiling, or one more
turn of the loop that extends a formula under a ceiling. -/
inductive Call where
  | operand (c : Cursor)
  | climb (ceiling : Nat) (c : Cursor)
  | extend (ceiling : Nat) (left : Formula) (c : Cursor)

/-- The end of a group: its formula has been read, and a parenthesis is due. -/
def closeGroup (f : Formula) (c : Cursor) : ExceptT ParseError Option (Formula × Cursor) :=
  match c.next? with
  | none => throw (.expectedAtEnd .closingParenthesis)
  | some (.closing, after) => return (f, after)
  | some _ => throw (.unmatchedParenthesis c.position)

/-- One call; the calls it makes go to `call`. -/
def readCalling (call : Call → ExceptT ParseError Option (Formula × Cursor)) :
    Call → ExceptT ParseError Option (Formula × Cursor)
  | .operand c =>
    match c.next? with
    | none => throw (.expectedAtEnd .operand)
    | some (.atom a, after) => return (atom a, after)
    | some (.not, after) => do
      let (f, rest) ← call (.climb Connective.negationLevel after)
      return (not f, rest)
    | some (.opening, after) => do
      let (f, rest) ← call (.climb Connective.maxLevel after)
      closeGroup f rest
    | some _ => throw (.missingOperand c.position)
  | .climb ceiling c => do
    let (f, rest) ← call (.operand c)
    call (.extend ceiling f rest)
  | .extend ceiling left c =>
    match c.next? with
    | none => return (left, c)
    | some (.closing, _) => return (left, c)
    | some (.connective o, after) =>
      if ceiling < o.level then
        return (left, c)
      else do
        let (f, rest) ← call (.climb (o.level - 1) after)
        call (.extend ceiling (binary o left f) rest)
    | some (t, _) => throw (.unknownOperator t)

/-- The reader with at most `n` calls nested. -/
def readWithin : Nat → Call → ExceptT ParseError Option (Formula × Cursor)
  | 0, _ => none
  | n + 1, k => readCalling (readWithin n) k

/-- The answer of a step that began at the cursor, with the cursor where it leaves off. -/
def onCursor {bound : Nat} (c : Cursor) (step : Except ParseError (Reading bound)) :
    Except ParseError (Formula × Cursor) :=
  step.map fun r => (r.formula, c.leaving r.rest)

/-- The answer of the library's reader. -/
def Call.answer : Call → Except ParseError (Formula × Cursor)
  | operand c => onCursor c (Formula.operand c.unread)
  | climb ceiling c => onCursor c (Formula.climb ceiling c.unread)
  | extend ceiling left c => onCursor c (Formula.extend ceiling left c.unread)

/-! ## What a step uses up -/

/-- The tokens end in these, with at least one before them. -/
def Consumes (ts rest : List Located) : Prop := ∃ t us, ts = t :: us ∧ rest <:+ us

section Consumes

variable {ts us rest : List Located}

theorem consumes_cons (t : Located) (h : rest <:+ ts) : Consumes (t :: ts) rest :=
  ⟨t, ts, rfl, h⟩

theorem Consumes.suffix (h : Consumes ts rest) : rest <:+ ts := by
  obtain ⟨t, us, rfl, hrest⟩ := h
  exact hrest.trans (List.suffix_cons t us)

theorem Consumes.length_lt (h : Consumes ts rest) : rest.length < ts.length := by
  obtain ⟨t, us, rfl, hrest⟩ := h
  exact Nat.lt_succ_of_le hrest.length_le

theorem Consumes.trans_suffix (h : Consumes ts us) (hrest : rest <:+ us) : Consumes ts rest := by
  obtain ⟨t, vs, rfl, hus⟩ := h
  exact consumes_cons t (hrest.trans hus)

end Consumes

mutual

theorem consumes_of_reads_operand {ts rest : List Located} {f : Formula}
    (h : Reads (operand ts) f rest) : Consumes ts rest := by
  match ts with
  | [] => exact absurd h not_reads_operand_nil
  | (.atom a, i) :: ts =>
      obtain ⟨-, hrest⟩ := reads_operand_atom.1 h
      rw [hrest]
      exact consumes_cons _ (List.suffix_refl ts)
  | (.not, i) :: ts =>
      obtain ⟨g, hg, -⟩ := reads_operand_not.1 h
      exact consumes_cons _ (consumes_of_reads_climb hg).1.suffix
  | (.opening, i) :: ts =>
      obtain ⟨j, hg⟩ := reads_operand_opening.1 h
      have hclosing : (.closing, j) :: rest <:+ ts := (consumes_of_reads_climb hg).1.suffix
      exact consumes_cons _ ((List.suffix_cons _ rest).trans hclosing)
  | (.closing, _) :: _ => exact absurd h not_reads_operand_closing
  | (.connective _, _) :: _ => exact absurd h not_reads_operand_connective
termination_by (ts.length, 0)

theorem consumes_of_reads_climb {n : Nat} {ts rest : List Located} {f : Formula}
    (h : Reads (climb n ts) f rest) : Consumes ts rest ∧ Halts n rest := by
  obtain ⟨g, us, hg, hf⟩ := reads_climb.1 h
  have hus : Consumes ts us := consumes_of_reads_operand hg
  -- The loop goes on from what the operand left, and that is less.
  have hlt : us.length < ts.length := hus.length_lt
  obtain ⟨hrest, hhalts⟩ := suffix_of_reads_extend hf
  exact ⟨hus.trans_suffix hrest, hhalts⟩
termination_by (ts.length, 1)

theorem suffix_of_reads_extend {n : Nat} {l f : Formula} {ts rest : List Located}
    (h : Reads (extend n l ts) f rest) : rest <:+ ts ∧ Halts n rest := by
  by_cases hhalts : Halts n ts
  · obtain ⟨-, hrest⟩ := (reads_extend_of_halts hhalts).1 h
    rw [hrest]
    exact ⟨List.suffix_refl ts, hhalts⟩
  · obtain ⟨c, i, us, hts, hc⟩ := exists_connective_of_reads_extend h hhalts
    rw [hts] at h
    obtain ⟨r, vs, hr, hf⟩ := (reads_extend_connective hc).1 h
    have hus : us.length < ts.length := hts ▸ Nat.lt_succ_self us.length
    have hvs : Consumes us vs := (consumes_of_reads_climb hr).1
    have hlt : vs.length < us.length := hvs.length_lt
    obtain ⟨hrest, hhalts⟩ := suffix_of_reads_extend hf
    rw [hts]
    exact ⟨(hrest.trans hvs.suffix).trans (List.suffix_cons _ us), hhalts⟩
termination_by (ts.length, 0)

end

/-! ## The reader with a cursor ends -/

/-- How deep the calls are nested that a call leads to, at most. -/
def Call.depth : Call → Nat
  | operand c => 2 * c.unread.length + 1
  | climb _ c => 2 * c.unread.length + 2
  | extend _ _ c => 2 * c.unread.length + 1

theorem Call.depth_pos (k : Call) : 0 < k.depth := by
  cases k <;> exact Nat.succ_pos _

section Step

variable {call : Call → ExceptT ParseError Option (Formula × Cursor)} {c : Cursor}
  {us : List Located} {n : Nat}

/-- A step from a place further on leaves the same place as one from here. -/
theorem onCursor_leaving {bound : Nat} {step : Except ParseError (Reading bound)}
    (hus : us <:+ c.unread) (hstep : ∀ f rest, Reads step f rest → rest <:+ us) :
    onCursor (c.leaving us) step = onCursor c step := by
  cases step with
  | error e => rfl
  | ok r =>
      have hrest : r.rest <:+ us := hstep r.formula r.rest ⟨r.within, rfl⟩
      show Except.ok (r.formula, (c.leaving us).leaving r.rest) = _
      rw [Cursor.leaving_leaving hus hrest]
      rfl

theorem answer_climb_leaving (h : us <:+ c.unread) :
    (Call.climb n (c.leaving us)).answer = onCursor c (climb n us) := by
  rw [Call.answer, Cursor.unread_leaving h]
  exact onCursor_leaving h fun f rest hread => (consumes_of_reads_climb hread).1.suffix

theorem answer_extend_leaving {l : Formula} (h : us <:+ c.unread) :
    (Call.extend n l (c.leaving us)).answer = onCursor c (extend n l us) := by
  rw [Call.answer, Cursor.unread_leaving h]
  exact onCursor_leaving h fun f rest hread => (suffix_of_reads_extend hread).1

theorem readCalling_operand (hclimb : ∀ n us, Consumes c.unread us →
    call (.climb n (c.leaving us)) = some (onCursor c (climb n us))) :
    readCalling call (.operand c) = some (onCursor c (operand c.unread)) := by
  rw [readCalling]
  cases hts : c.unread with
  | nil =>
      rw [Cursor.next?_of_unread_nil hts, operand.eq_def]
      rfl
  | cons head ts =>
      obtain ⟨t, i⟩ := head
      have hnext := Cursor.next?_of_unread_cons hts
      have hconsumes : Consumes c.unread ts := hts ▸ consumes_cons _ (List.suffix_refl ts)
      rw [hnext, operand.eq_def]
      cases t with
      | atom a => rfl
      | not =>
          simp only [hclimb Connective.negationLevel ts hconsumes]
          cases climb Connective.negationLevel ts with
          | error e => rfl
          | ok r => rfl
      | opening =>
          simp only [hclimb Connective.maxLevel ts hconsumes]
          cases hread : climb Connective.maxLevel ts with
          | error e => rfl
          | ok r =>
              obtain ⟨f, rest, within⟩ := r
              have hrest : rest <:+ ts := (consumes_of_reads_climb ⟨within, hread⟩).1.suffix
              have hleft : (c.leaving rest).unread = rest :=
                Cursor.unread_leaving (hrest.trans hconsumes.suffix)
              show closeGroup f (c.leaving rest) = _
              rw [closeGroup]
              cases rest with
              | nil =>
                  rw [Cursor.next?_of_unread_nil hleft]
                  rfl
              | cons next after =>
                  obtain ⟨u, j⟩ := next
                  have hafter := Cursor.leaving_leaving (hrest.trans hconsumes.suffix)
                    (List.suffix_cons (u, j) after)
                  rw [Cursor.next?_of_unread_cons hleft, hafter]
                  cases u with
                  | closing => rfl
                  | atom _ | not | connective _ | opening =>
                      rw [(Cursor.getElem?_of_unread_cons hleft).1]
                      rfl
      | closing | connective _ =>
          rw [(Cursor.getElem?_of_unread_cons hts).1]
          rfl

theorem readCalling_climb
    (hoperand : call (.operand c) = some (onCursor c (operand c.unread)))
    (hextend : ∀ l us, Consumes c.unread us →
      call (.extend n l (c.leaving us)) = some (onCursor c (extend n l us))) :
    readCalling call (.climb n c) = some (onCursor c (climb n c.unread)) := by
  rw [readCalling, hoperand, climb.eq_def]
  cases hread : operand c.unread with
  | error e => rfl
  | ok r =>
      have hrest : Consumes c.unread r.rest := consumes_of_reads_operand ⟨r.within, hread⟩
      show call (.extend n r.formula (c.leaving r.rest)) = _
      rw [hextend _ _ hrest]
      simp only []
      cases extend n r.formula r.rest with
      | error e => rfl
      | ok s => rfl

theorem readCalling_extend {l : Formula}
    (hclimb : ∀ m us, Consumes c.unread us →
      call (.climb m (c.leaving us)) = some (onCursor c (climb m us)))
    (hextend : ∀ l us, Consumes c.unread us →
      call (.extend n l (c.leaving us)) = some (onCursor c (extend n l us))) :
    readCalling call (.extend n l c) = some (onCursor c (extend n l c.unread)) := by
  have hstay : some (Except.ok (l, c)) =
      some (Except.ok (ε := ParseError) (l, c.leaving c.unread)) := by
    rw [Cursor.leaving_unread]
  rw [readCalling]
  cases hts : c.unread with
  | nil =>
      rw [Cursor.next?_of_unread_nil hts, extend.eq_def]
      rw [hts] at hstay
      exact hstay
  | cons head ts =>
      obtain ⟨t, i⟩ := head
      have hnext := Cursor.next?_of_unread_cons hts
      have hconsumes : Consumes c.unread ts := hts ▸ consumes_cons _ (List.suffix_refl ts)
      rw [hts] at hstay
      rw [hnext, extend.eq_def]
      cases t with
      | closing => exact hstay
      | atom _ | not | opening => rfl
      | connective o =>
          by_cases hlevel : n < o.level
          · simp only [if_pos hlevel]
            exact hstay
          · simp only [if_neg hlevel, hclimb (o.level - 1) ts hconsumes]
            cases hread : climb (o.level - 1) ts with
            | error e => rfl
            | ok r =>
                have hrest := (consumes_of_reads_climb ⟨r.within, hread⟩).1.suffix
                show call (.extend n (binary o l r.formula) (c.leaving r.rest)) = _
                rw [hextend _ _ (hconsumes.trans_suffix hrest)]
                simp only []
                cases extend n (binary o l r.formula) r.rest with
                | error e => rfl
                | ok s => rfl

theorem Consumes.length_leaving_lt (h : Consumes c.unread us) :
    (c.leaving us).unread.length < c.unread.length := by
  rw [Cursor.unread_leaving h.suffix]
  exact h.length_lt

/-- A call returns if those do that are nested less deep. -/
theorem readCalling_eq {k : Call} (h : ∀ j, j.depth < k.depth → call j = some j.answer) :
    readCalling call k = some k.answer := by
  have hclimb : ∀ c : Cursor, 2 * c.unread.length < k.depth → ∀ m us, Consumes c.unread us →
      call (.climb m (c.leaving us)) = some (onCursor c (climb m us)) := by
    intro c hc m us hus
    have hlt := hus.length_leaving_lt
    have hdepth : (Call.climb m (c.leaving us)).depth < k.depth := by
      show 2 * (c.leaving us).unread.length + 2 < k.depth
      omega
    rw [h _ hdepth, answer_climb_leaving hus.suffix]
  have hextend : ∀ c : Cursor, 2 * c.unread.length < k.depth → ∀ m l us, Consumes c.unread us →
      call (.extend m l (c.leaving us)) = some (onCursor c (extend m l us)) := by
    intro c hc m l us hus
    have hlt := hus.length_leaving_lt
    have hdepth : (Call.extend m l (c.leaving us)).depth < k.depth := by
      show 2 * (c.leaving us).unread.length + 1 < k.depth
      omega
    rw [h _ hdepth, answer_extend_leaving hus.suffix]
  cases k with
  | operand c => exact readCalling_operand (hclimb c (Nat.lt_succ_self _))
  | climb m c =>
      have hc : 2 * c.unread.length < (Call.climb m c).depth := Nat.lt_add_of_pos_right (by decide)
      exact readCalling_climb (h (.operand c) (Nat.lt_succ_self _)) (hextend c hc m)
  | extend m l c =>
      exact readCalling_extend (hclimb c (Nat.lt_succ_self _)) (hextend c (Nat.lt_succ_self _) m)

end Step

theorem readWithin_eq {n : Nat} {k : Call} (h : k.depth ≤ n) : readWithin n k = some k.answer := by
  induction n generalizing k with
  | zero => exact absurd h (Nat.not_le_of_lt k.depth_pos)
  | succ n ih => exact readCalling_eq fun j hj => ih (by omega)

/-- Without a bound: the recursion has one solution, and that returns always. -/
theorem solves_readCalling_iff {call : Call → ExceptT ParseError Option (Formula × Cursor)} :
    (∀ k, call k = readCalling call k) ↔ ∀ k, call k = some k.answer := by
  refine ⟨fun hcall k => ?_, fun hcall k => ?_⟩
  · induction hk : k.depth using Nat.strongRecOn generalizing k with
    | ind n ih =>
        rw [hcall]
        exact readCalling_eq fun j hj => ih j.depth (hk ▸ hj) j rfl
  · rw [hcall, readCalling_eq fun j _ => hcall j]

/-! ## Where a call stops -/

theorem onCursor_eq_ok_iff {bound : Nat} {step : Except ParseError (Reading bound)}
    {c d : Cursor} {f : Formula} :
    onCursor c step = .ok (f, d) ↔ ∃ rest, Reads step f rest ∧ d = c.leaving rest := by
  cases step with
  | error e => simp [onCursor, Except.map, not_reads_error]
  | ok r =>
      simp only [onCursor, Except.map, reads_ok_iff, Except.ok.injEq, Prod.mk.injEq]
      refine ⟨fun h => ⟨r.rest, ⟨h.1.symm, rfl⟩, h.2.symm⟩, fun h => ?_⟩
      obtain ⟨rest, ⟨hf, hrest⟩, hd⟩ := h
      exact ⟨hf.symm, hrest ▸ hd.symm⟩

/-- What consumes tokens moves the cursor on, and not beyond the end. -/
theorem Consumes.position_leaving {c : Cursor} {rest : List Located}
    (h : Consumes c.unread rest) :
    c.position < (c.leaving rest).position ∧ (c.leaving rest).position ≤ c.buffer.length := by
  have hlt := h.length_lt
  have hlength := c.length_unread
  simp only [Cursor.leaving]
  omega

/-- Where the loop stops, in terms of the buffer. -/
theorem Halts.stops {c : Cursor} {n : Nat} (h : Halts n c.unread)
    (hle : c.position ≤ c.buffer.length) :
    c.position = c.buffer.length ∨ c.buffer[c.position]? = some .closing ∨
      ∃ o, c.buffer[c.position]? = some (.connective o) ∧ n < o.level := by
  cases hrest : c.unread with
  | nil =>
      have hlength := c.length_unread
      rw [hrest, List.length_nil] at hlength
      exact .inl (by omega)
  | cons head rest =>
      obtain ⟨t, i⟩ := head
      rw [(Cursor.getElem?_of_unread_cons hrest).2]
      rw [hrest] at h
      cases t with
      | closing => exact .inr (.inl rfl)
      | connective o => exact .inr (.inr ⟨o, rfl, h⟩)
      | atom _ | not | opening => exact absurd h id

/-- The whole text is read from the first place on, and then the cursor has to be at the
end. -/
theorem ofTokens_eq_answer (ts : List Token) :
    ofTokens ts = (Call.climb Connective.maxLevel ⟨ts, 0⟩).answer >>= fun r =>
      if r.2.next?.isNone then .ok r.1 else .error .trailingInput := by
  let start : Cursor := ⟨ts, 0⟩
  show ofTokens ts = onCursor start (climb Connective.maxLevel ts.zipIdx) >>= _
  rw [ofTokens]
  cases hread : climb Connective.maxLevel ts.zipIdx with
  | error e => rfl
  | ok r =>
      obtain ⟨f, rest, within⟩ := r
      have hleft : (start.leaving rest).unread = rest :=
        Cursor.unread_leaving (consumes_of_reads_climb ⟨within, hread⟩).1.suffix
      show _ = (if (start.leaving rest).next?.isNone then .ok f else .error .trailingInput :
        Except ParseError Formula)
      cases rest with
      | nil =>
          rw [Cursor.next?_of_unread_nil hleft]
          rfl
      | cons head rest =>
          rw [Cursor.next?_of_unread_cons hleft]
          rfl

/-- The recursion has a solution, and whatever solves it returns from every call, with the
library's answer: a bound on the nesting of calls that is twice the number of unread tokens
and two more is never reached. If the answer is a formula, the cursor it comes with is in
the same buffer, behind the place where the call began and not behind the end; and under a
ceiling it is at the end, at a closing parenthesis or at a sign above the ceiling. -/
theorem reading_progresses :
    (∃ call, ∀ k, call k = readCalling call k) ∧
    (∀ call, (∀ k, call k = readCalling call k) →
      (∀ k, call k = some k.answer ∧ ∀ n, k.depth ≤ n → readWithin n k = call k) ∧
      (∀ buffer start f d, call (.operand ⟨buffer, start⟩) = some (.ok (f, d)) →
        d.buffer = buffer ∧ start < d.position ∧ d.position ≤ buffer.length) ∧
      ∀ buffer start ceiling f d, call (.climb ceiling ⟨buffer, start⟩) = some (.ok (f, d)) →
        d.buffer = buffer ∧ start < d.position ∧ d.position ≤ buffer.length ∧
        (d.position = buffer.length ∨ buffer[d.position]? = some .closing ∨
          ∃ o, buffer[d.position]? = some (.connective o) ∧ ceiling < o.level)) ∧
    ∀ ts, ofTokens ts = (Call.climb Connective.maxLevel ⟨ts, 0⟩).answer >>= fun r =>
      if r.2.next?.isNone then .ok r.1 else .error .trailingInput := by
  refine ⟨⟨_, solves_readCalling_iff.2 fun _ => rfl⟩, fun call hcall => ?_, ofTokens_eq_answer⟩
  have hanswer := solves_readCalling_iff.1 hcall
  refine ⟨fun k => ⟨hanswer k, fun n hn => ?_⟩, ?_, ?_⟩
  · rw [hanswer]
    exact readWithin_eq hn
  · intro buffer start f d h
    rw [hanswer] at h
    obtain ⟨rest, hread, rfl⟩ := onCursor_eq_ok_iff.1 (Option.some.inj h)
    exact ⟨rfl, (consumes_of_reads_operand hread).position_leaving⟩
  · intro buffer start ceiling f d h
    rw [hanswer] at h
    obtain ⟨rest, hread, rfl⟩ := onCursor_eq_ok_iff.1 (Option.some.inj h)
    obtain ⟨hconsumes, hhalts⟩ := consumes_of_reads_climb hread
    obtain ⟨hlt, hle⟩ := hconsumes.position_leaving
    have hleft := Cursor.unread_leaving hconsumes.suffix
    exact ⟨rfl, hlt, hle, (hleft.symm ▸ hhalts).stops hle⟩

/-- `~A -> B)`. -/
def unopened : List Token :=
  [.not, .atom ⟨'A'⟩, .connective .imply, .atom ⟨'B'⟩, .closing]

/-- Under a ceiling below the arrow `~A -> B)` is read up to the arrow, and under the
loosest one up to the parenthesis, where the whole text goes wrong. -/
theorem reading_progresses_unopened :
    (∀ k : Call, some k.answer = readCalling (fun j => some j.answer) k) ∧
    readWithin 12 (.climb Connective.or.level ⟨unopened, 0⟩) =
      some (.ok (not (atom ⟨'A'⟩), ⟨unopened, 2⟩)) ∧
    (0 < 2 ∧ 2 ≤ unopened.length ∧ (2 = unopened.length ∨ unopened[2]? = some .closing ∨
      ∃ o, unopened[2]? = some (.connective o) ∧ Connective.or.level < o.level)) ∧
    readWithin 12 (.climb Connective.maxLevel ⟨unopened, 0⟩) =
      some (.ok (binary .imply (not (atom ⟨'A'⟩)) (atom ⟨'B'⟩), ⟨unopened, 4⟩)) ∧
    ofTokens unopened = .error .trailingInput := by
  have hsolves : ∀ k : Call, some k.answer = readCalling (fun j => some j.answer) k :=
    solves_readCalling_iff.2 fun _ => rfl
  have hor : readWithin 12 (.climb Connective.or.level ⟨unopened, 0⟩) =
      some (.ok (not (atom ⟨'A'⟩), ⟨unopened, 2⟩)) := rfl
  have hiff : readWithin 12 (.climb Connective.maxLevel ⟨unopened, 0⟩) =
      some (.ok (binary .imply (not (atom ⟨'A'⟩)) (atom ⟨'B'⟩), ⟨unopened, 4⟩)) := rfl
  obtain ⟨-, hcalls, htokens⟩ := reading_progresses
  obtain ⟨hbound, -, hstops⟩ := hcalls _ hsolves
  have hanswer := ((hbound (.climb Connective.or.level ⟨unopened, 0⟩)).2 12 (Nat.le_refl _)).symm
  have hwhole := ((hbound (.climb Connective.maxLevel ⟨unopened, 0⟩)).2 12 (Nat.le_refl _)).symm
  refine ⟨hsolves, hor, (hstops _ _ _ _ _ (hanswer.trans hor)).2, hiff, ?_⟩
  rw [htokens, Option.some.inj (hwhole.trans hiff)]
  rfl

end Formula

end Sentential
