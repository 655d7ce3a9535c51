import Sentential.Proofs.Entries
import Sentential.Proofs.Extensionality

/-!
# An assignment text is a map in which the last entry counts

Reading goes from piece to piece and keeps the assignment so far (`take`). Whether a piece
is accepted does not depend on that assignment, so the run of the loop splits: it fails at
the leftmost piece that is refused (`foldlM_take_eq_error_iff`), and otherwise it has one
entry or none from every piece and inserts them in order (`foldlM_take_eq_ok_iff`).

Insertion is the only place where the order counts. A look-up in the result sees the last
entry for its atom and nothing else, which is the invariant that the loop carries
(`get?_foldl_put`), and insertions for different atoms commute (`put_comm`). Everything about
other orders and other spellings comes from these two.
-/

namespace Sentential.Assignment

variable {m n : Assignment} {a b : Atom} {v w : Bool} {e : AssignmentError} {p q : List Char}
  {ps qs : List (List Char)} {o o' : Option (Atom × Bool)} {os : List (Option (Atom × Bool))}

/-! ## One turn of the loop -/

/-- Put what a piece gives into the assignment so far. -/
def put (m : Assignment) : Option (Atom × Bool) → Assignment
  | none => m
  | some (a, v) => m.insert a v

/-- Read the next piece into the assignment so far. -/
def take (m : Assignment) (piece : List Char) : Except AssignmentError Assignment :=
  (readPiece piece).map (put m)

theorem take_eq_ok_iff : take m p = .ok n ↔ ∃ o, Gives p o ∧ put m o = n := by
  simp only [← readPiece_eq_ok_iff, take]
  cases readPiece p <;> simp [Except.map]

theorem take_eq_error_iff : take m p = .error e ↔ Refuses p e := by
  rw [← readPiece_eq_error_iff, take]
  cases readPiece p <;> simp [Except.map]

theorem foldlM_take_eq_ok_iff :
    ps.foldlM take m = .ok n ↔ ∃ os, List.Forall₂ Gives ps os ∧ os.foldl put m = n := by
  induction ps generalizing m with
  | nil =>
      simp only [List.foldlM_nil, List.forall₂_nil_left_iff, exists_eq_left, List.foldl_nil]
      exact ⟨Except.ok.inj, congrArg Except.ok⟩
  | cons p ps ih =>
      rw [List.foldlM_cons]
      refine ⟨fun h => ?_, fun h => ?_⟩
      · cases htake : take m p with
        | error e =>
            rw [htake] at h
            cases h
        | ok m' =>
            rw [htake] at h
            obtain ⟨o, ho, rfl⟩ := take_eq_ok_iff.1 htake
            obtain ⟨os, hos, hn⟩ := ih.1 h
            exact ⟨o :: os, .cons ho hos, hn⟩
      · obtain ⟨os', hgives, hn⟩ := h
        obtain ⟨o, os, ho, hos, rfl⟩ := List.forall₂_cons_left_iff.1 hgives
        rw [take_eq_ok_iff.2 ⟨o, ho, rfl⟩]
        exact ih.2 ⟨os, hos, hn⟩

/-- The leftmost of the pieces that are refused, with its error. -/
def FirstRefused (ps : List (List Char)) (e : AssignmentError) : Prop :=
  ∃ before p after, ps = before ++ p :: after ∧ (∀ q ∈ before, ∃ o, Gives q o) ∧ Refuses p e

theorem firstRefused_cons :
    FirstRefused (p :: ps) e ↔ Refuses p e ∨ (∃ o, Gives p o) ∧ FirstRefused ps e := by
  refine ⟨fun h => ?_, fun h => ?_⟩
  · obtain ⟨before, q, after, hps, hbefore, hq⟩ := h
    cases before with
    | nil =>
        cases hps
        exact .inl hq
    | cons r before =>
        cases hps
        obtain ⟨hr, hbefore⟩ := List.forall_mem_cons.1 hbefore
        exact .inr ⟨hr, before, q, after, rfl, hbefore, hq⟩
  · rcases h with hp | ⟨hp, before, q, after, rfl, hbefore, hq⟩
    · exact ⟨[], p, ps, rfl, List.forall_mem_nil _, hp⟩
    · exact ⟨p :: before, q, after, rfl, List.forall_mem_cons.2 ⟨hp, hbefore⟩, hq⟩

theorem foldlM_take_eq_error_iff : ps.foldlM take m = .error e ↔ FirstRefused ps e := by
  induction ps generalizing m with
  | nil =>
      have hnil : ¬ FirstRefused [] e := fun ⟨_, _, _, hps, _⟩ =>
        List.append_ne_nil_of_right_ne_nil _ (List.cons_ne_nil _ _) hps.symm
      refine iff_of_false (fun h => ?_) hnil
      cases h
  | cons p ps ih =>
      rw [List.foldlM_cons, firstRefused_cons]
      cases htake : take m p with
      | error e' =>
          have hrefuses : Refuses p e' := take_eq_error_iff.1 htake
          have hgives : ¬ ∃ o, Gives p o := fun ⟨o, ho⟩ => ho.not_refuses hrefuses
          rw [or_iff_left fun h => hgives h.1, ← take_eq_error_iff (m := m), htake]
          rfl
      | ok m' =>
          obtain ⟨o, ho, -⟩ := take_eq_ok_iff.1 htake
          rw [or_iff_right ho.not_refuses, and_iff_right ⟨o, ho⟩]
          exact ih

/-! ## The last entry counts -/

/-- The last of the entries for an atom. -/
def LastEntry (os : List (Option (Atom × Bool))) (a : Atom) (v : Bool) : Prop :=
  ∃ before after, os = before ++ some (a, v) :: after ∧ ∀ w, some (a, w) ∉ after

theorem lastEntry_cons :
    LastEntry (o :: os) a v ↔ LastEntry os a v ∨ o = some (a, v) ∧ ∀ w, some (a, w) ∉ os := by
  refine ⟨fun h => ?_, fun h => ?_⟩
  · obtain ⟨before, after, hos, hafter⟩ := h
    cases before with
    | nil =>
        cases hos
        exact .inr ⟨rfl, hafter⟩
    | cons o' before =>
        cases hos
        exact .inl ⟨before, after, rfl, hafter⟩
  · rcases h with ⟨before, after, rfl, hafter⟩ | ⟨rfl, hos⟩
    · exact ⟨o :: before, after, rfl, hafter⟩
    · exact ⟨[], os, rfl, hos⟩

theorem get?_put :
    (put m o).get? a = some v ↔
      o = some (a, v) ∨ (∀ w, o ≠ some (a, w)) ∧ m.get? a = some v := by
  cases o with
  | none => simp [put]
  | some e =>
      obtain ⟨b, w⟩ := e
      rw [put, get?_insert]
      by_cases hab : a = b
      · simp [hab]
      · simp [hab, Ne.symm hab]

/-- What the loop has for an atom is its last entry, or if it has none what the loop
started with. -/
theorem get?_foldl_put :
    (os.foldl put m).get? a = some v ↔
      LastEntry os a v ∨ (∀ w, some (a, w) ∉ os) ∧ m.get? a = some v := by
  induction os generalizing m with
  | nil =>
      have hnil : ¬ LastEntry [] a v := fun ⟨_, _, hos, _⟩ =>
        List.append_ne_nil_of_right_ne_nil _ (List.cons_ne_nil _ _) hos.symm
      simp [hnil]
  | cons o os ih =>
      have hcons : (∀ w, some (a, w) ∉ o :: os) ↔
          (∀ w, o ≠ some (a, w)) ∧ ∀ w, some (a, w) ∉ os := by
        simp only [List.mem_cons, not_or, forall_and, ne_comm, ne_eq]
      rw [List.foldl_cons, ih, get?_put, lastEntry_cons, hcons]
      tauto

theorem LastEntry.mem (h : LastEntry os a v) : some (a, v) ∈ os := by
  obtain ⟨before, after, rfl, -⟩ := h
  exact List.mem_append_right _ List.mem_cons_self

theorem exists_lastEntry (h : some (a, w) ∈ os) : ∃ v, LastEntry os a v := by
  induction os generalizing w with
  | nil => cases h
  | cons o os ih =>
      by_cases hos : ∃ u, some (a, u) ∈ os
      · obtain ⟨u, hu⟩ := hos
        obtain ⟨v, hv⟩ := ih hu
        exact ⟨v, lastEntry_cons.2 (.inl hv)⟩
      · have ho : some (a, w) = o := (List.mem_cons.1 h).resolve_right fun hw => hos ⟨w, hw⟩
        exact ⟨w, lastEntry_cons.2 (.inr ⟨ho.symm, not_exists.1 hos⟩)⟩

/-- An assignment has what a list of entries says, the last entry for each atom. -/
structure LastWins (os : List (Option (Atom × Bool))) (m : Assignment) : Prop where
  mem_iff : ∀ a, a ∈ m ↔ ∃ v, some (a, v) ∈ os
  get?_eq_some_iff : ∀ a v, m.get? a = some v ↔ LastEntry os a v

theorem lastWins_iff : LastWins os m ↔ os.foldl put ∅ = m := by
  have hget : ∀ a v, (os.foldl put ∅).get? a = some v ↔ LastEntry os a v := by
    intro a v
    simp [get?_foldl_put, get?_empty]
  refine ⟨fun h => ?_, fun h => ?_⟩
  · refine ext fun a => Option.ext fun v => ?_
    rw [hget, h.get?_eq_some_iff]
  · subst h
    refine ⟨fun a => ?_, hget⟩
    rw [mem_iff]
    simp only [hget]
    exact ⟨fun ⟨v, hv⟩ => ⟨v, hv.mem⟩, fun ⟨_, hw⟩ => exists_lastEntry hw⟩

/-- If no atom has two entries, the assignment is the one that has them all. -/
theorem lastWins_of_perm (h : (os.filterMap id).Perm m.entries) : LastWins os m := by
  have hmem : ∀ a v, some (a, v) ∈ os ↔ m.get? a = some v := by
    intro a v
    rw [get?_eq_some_iff, ← h.mem_iff, List.mem_filterMap]
    simp
  refine ⟨fun a => ?_, fun a v => ?_⟩
  · simp only [hmem, mem_iff]
  · refine ⟨fun hv => ?_, fun hlast => (hmem a v).1 hlast.mem⟩
    obtain ⟨w, hlast⟩ := exists_lastEntry ((hmem a v).2 hv)
    cases hv.symm.trans ((hmem a w).1 hlast.mem)
    exact hlast

/-! ## Pieces in another order -/

/-- A piece gives an entry for the atom. -/
def Names (p : List Char) (a : Atom) : Prop := ∃ v, Gives p (some (a, v))

theorem Gives.names_iff (h : Gives p (some (a, v))) : Names p b ↔ b = a := by
  refine ⟨fun ⟨w, hw⟩ => ?_, fun hb => hb ▸ ⟨v, h⟩⟩
  cases h.readPiece.symm.trans hw.readPiece
  rfl

/-- No atom has an entry from both pieces. -/
def Apart (p q : List Char) : Prop := ∀ a, Names p a → ¬ Names q a

theorem Apart.symm (h : Apart p q) : Apart q p := fun a hq hp => h a hp hq

/-- The same pieces in another order, but the pieces for any one atom in the same. -/
inductive Rearranged : List (List Char) → List (List Char) → Prop
  | nil : Rearranged [] []
  | cons (p : List Char) {ps qs : List (List Char)} :
      Rearranged ps qs → Rearranged (p :: ps) (p :: qs)
  | swap {p q : List Char} (ps : List (List Char)) :
      Apart p q → Rearranged (p :: q :: ps) (q :: p :: ps)
  | trans {ps qs rs : List (List Char)} :
      Rearranged ps qs → Rearranged qs rs → Rearranged ps rs

theorem put_comm (h : Apart p q) (hp : Gives p o) (hq : Gives q o') (m : Assignment) :
    put (put m o) o' = put (put m o') o := by
  cases o with
  | none => rfl
  | some e =>
      cases o' with
      | none => rfl
      | some e' =>
          obtain ⟨a, v⟩ := e
          obtain ⟨b, w⟩ := e'
          have hab : a ≠ b := fun heq => h a ⟨v, hp⟩ (heq ▸ ⟨w, hq⟩)
          exact insert_comm m hab v w

theorem Rearranged.foldlM_take (h : Rearranged ps qs) (hn : ps.foldlM take m = .ok n) :
    qs.foldlM take m = .ok n := by
  induction h generalizing m with
  | nil => exact hn
  | @cons p ps qs _ ih =>
      obtain ⟨os', hgives, hos⟩ := foldlM_take_eq_ok_iff.1 hn
      obtain ⟨o, os, ho, hps, rfl⟩ := List.forall₂_cons_left_iff.1 hgives
      have hps : ps.foldlM take (put m o) = .ok n := foldlM_take_eq_ok_iff.2 ⟨os, hps, hos⟩
      obtain ⟨os', hqs, hos'⟩ := foldlM_take_eq_ok_iff.1 (ih hps)
      exact foldlM_take_eq_ok_iff.2 ⟨o :: os', .cons ho hqs, hos'⟩
  | @swap p q ps hpq =>
      obtain ⟨os'', hgives, hos⟩ := foldlM_take_eq_ok_iff.1 hn
      obtain ⟨o, os', ho, hgives', rfl⟩ := List.forall₂_cons_left_iff.1 hgives
      obtain ⟨o', os, ho', hps, rfl⟩ := List.forall₂_cons_left_iff.1 hgives'
      refine foldlM_take_eq_ok_iff.2 ⟨o' :: o :: os, .cons ho' (.cons ho hps), ?_⟩
      rw [← hos, List.foldl_cons, List.foldl_cons, List.foldl_cons, List.foldl_cons,
        put_comm hpq ho ho']
  | trans _ _ ihpq ihqr => exact ihqr (ihpq hn)

/-- If no two pieces are for one atom, every order will do. -/
theorem rearranged_of_perm (h : ps.Perm qs) (hps : ps.Pairwise Apart) : Rearranged ps qs := by
  induction h with
  | nil => exact .nil
  | cons p _ ih => exact .cons p (ih (List.pairwise_cons.1 hps).2)
  | swap p q ps => exact .swap ps ((List.pairwise_cons.1 hps).1 p List.mem_cons_self)
  | trans hpq _ ihpq ihqr => exact .trans (ihpq hps) (ihqr ((hpq.pairwise_iff Apart.symm).1 hps))

/-! ## A text and its pieces -/

/-- What stands between the commas of a text. -/
def pieces (text : String) : List (List Char) := text.toList.splitOn ','

/-- The text of some pieces with commas between them. -/
def joined (ps : List (List Char)) : String := String.ofList ([','].intercalate ps)

theorem pieces_joined (hne : ps ≠ []) (h : ∀ p ∈ ps, ',' ∉ p) :
    pieces (joined ps) = ps := by
  rw [pieces, joined, String.toList_ofList, List.splitOn_intercalate ',' h hne]

theorem foldlM_take_eq (ps : List (List Char)) (m : Assignment) :
    ps.foldlM take m = (((ps.map Text.trim).filter (· ≠ [])).mapM readEntry).map fun es =>
      es.foldl (fun n e => n.insert e.1 e.2) m := by
  induction ps generalizing m with
  | nil => rfl
  | cons p ps ih =>
      rw [List.foldlM_cons, List.map_cons]
      by_cases hblank : Text.trim p = []
      · have htake : take m p = .ok m := take_eq_ok_iff.2 ⟨none, .blank hblank, rfl⟩
        rw [htake, List.filter_cons_of_neg (by simpa using hblank)]
        exact ih m
      · rw [List.filter_cons_of_pos (by simpa using hblank), List.mapM_cons, take, readPiece,
          if_neg hblank]
        cases readEntry (Text.trim p) with
        | error e => rfl
        | ok e =>
            refine (ih (m.insert e.1 e.2)).trans ?_
            cases ((ps.map Text.trim).filter (· ≠ [])).mapM readEntry <;> rfl

/-- Reading a text is going through its pieces. -/
theorem parse_eq (text : String) : parse text = (pieces text).foldlM take ∅ :=
  (foldlM_take_eq (pieces text) ∅).symm

/-- A spelling of each entry, in any order and with blank pieces in between, is read as
the assignment of the entries. -/
theorem parse_joined_of_spells (h : List.Forall₂ Spells ps os)
    (hperm : (os.filterMap id).Perm m.entries) : parse (joined ps) = .ok m := by
  have hgives : List.Forall₂ Gives ps os := h.imp fun _ _ hp => hp.gives
  have hfold : ps.foldlM take ∅ = .ok m :=
    foldlM_take_eq_ok_iff.2 ⟨os, hgives, lastWins_iff.1 (lastWins_of_perm hperm)⟩
  have hboth : List.Forall₂ (fun p o => ',' ∉ p ∧ Spells p o) ps os :=
    h.imp fun _ _ hp => ⟨hp.notMem_comma, hp⟩
  have hcomma : ∀ p ∈ ps, ',' ∉ p := ((List.forall₂_and_left ps os).1 hboth).1
  by_cases hne : ps = []
  · subst hne
    exact hfold
  · rw [parse_eq, pieces_joined hne hcomma, hfold]

theorem exists_parse_eq_ok_iff {text : String} :
    (∃ m, parse text = .ok m) ↔ ∀ p ∈ pieces text, ∃ o, Gives p o := by
  rw [parse_eq]
  refine ⟨fun ⟨m, hm⟩ => ?_, fun h => ?_⟩
  · obtain ⟨os, hos, -⟩ := foldlM_take_eq_ok_iff.1 hm
    have hboth : List.Forall₂ (fun p o => (∃ o', Gives p o') ∧ Gives p o) (pieces text) os :=
      hos.imp fun _ o ho => ⟨⟨o, ho⟩, ho⟩
    exact ((List.forall₂_and_left (pieces text) os).1 hboth).1
  · cases hfold : (pieces text).foldlM take ∅ with
    | ok m => exact ⟨m, rfl⟩
    | error e =>
        obtain ⟨before, p, after, hps, -, hp⟩ := foldlM_take_eq_error_iff.1 hfold
        have hmem : p ∈ pieces text := by
          rw [hps]
          exact List.mem_append_right _ List.mem_cons_self
        obtain ⟨o, ho⟩ := h p hmem
        exact absurd hp ho.not_refuses

theorem isLetter_of_gives (h : List.Forall₂ Gives ps os) (ha : some (a, v) ∈ os) :
    a.IsLetter := by
  induction h with
  | nil => cases ha
  | @cons p o ps os hp _ ih =>
      rcases List.mem_cons.1 ha with rfl | ha
      · cases hp with
        | entry _ _ hletter _ _ => exact hletter
      · exact ih ha

/-- The assignments that can be written down are those of letters. -/
theorem exists_text_iff : (∃ text, parse text = .ok m) ↔ ∀ a ∈ m, a.IsLetter := by
  refine ⟨fun ⟨text, htext⟩ a ha => ?_, fun hm => ?_⟩
  · rw [parse_eq, foldlM_take_eq_ok_iff] at htext
    obtain ⟨os, hgives, hm⟩ := htext
    obtain ⟨v, hv⟩ := ((lastWins_iff.2 hm).mem_iff a).1 ha
    exact isLetter_of_gives hgives hv
  · have hspells : ∀ e ∈ m.entries,
        Spells [e.1.symbol, '=', if e.2 then '1' else '0'] (some e) := by
      intro e he
      have hletter : e.1.IsLetter := hm e.1 (mem_iff.2 ⟨e.2, get?_eq_some_iff.2 he⟩)
      have hcapital : e.1.symbol.toUpper = e.1.symbol :=
        Char.toUpper_eq_of_not_isLower (Char.not_isLower_of_isUpper hletter)
      refine .valued (u := []) (v := []) (x := []) (y := []) (w := [if e.2 then '1' else '0'])
        (List.forall_mem_nil _) ⟨hletter, hcapital⟩ ?_
      cases e.2 <;> exact List.mem_cons_self
    have hpieces : List.Forall₂ Spells
        (m.entries.map fun e => [e.1.symbol, '=', if e.2 then '1' else '0'])
        (m.entries.map some) :=
      List.forall₂_map_left_iff.2 (List.forall₂_map_right_iff.2 (List.forall₂_same.2 hspells))
    have hentries : (m.entries.map some).filterMap id = m.entries := by
      rw [List.filterMap_map]
      exact List.filterMap_some
    exact ⟨_, parse_joined_of_spells hpieces (.of_eq hentries)⟩

/-- An assignment text is read if each of its pieces gives something, and what is read is the
assignment in which the last entry for each atom counts. Otherwise the leftmost piece that is
refused is reported. The entries of an assignment are read back from any spelling of them in
any order, and where entries for different atoms change places, the same is read. -/
theorem parse_reads_entries :
    (∀ text, (∃ m, parse text = .ok m) ↔ ∀ p ∈ pieces text, ∃ o, Gives p o) ∧
    (∀ text m, parse text = .ok m ↔
      ∃ os, List.Forall₂ Gives (pieces text) os ∧ LastWins os m) ∧
    (∀ text e, parse text = .error e ↔ FirstRefused (pieces text) e) ∧
    (∀ m ps os, List.Forall₂ Spells ps os → (os.filterMap id).Perm m.entries →
      parse (joined ps) = .ok m) ∧
    (∀ text text' m, Rearranged (pieces text) (pieces text') → parse text = .ok m →
      parse text' = .ok m) ∧
    ∀ text text' m, (pieces text).Perm (pieces text') → (pieces text).Pairwise Apart →
      parse text = .ok m → parse text' = .ok m := by
  simp only [lastWins_iff]
  refine ⟨fun text => exists_parse_eq_ok_iff, fun text m => ?_, fun text e => ?_,
    fun m ps os => parse_joined_of_spells, fun text text' m h hm => ?_,
    fun text text' m hperm hapart hm => ?_⟩
  · rw [parse_eq, foldlM_take_eq_ok_iff]
  · rw [parse_eq, foldlM_take_eq_error_iff]
  · rw [parse_eq] at hm ⊢
    exact h.foldlM_take hm
  · rw [parse_eq] at hm ⊢
    exact (rearranged_of_perm hperm hapart).foldlM_take hm

/-- The later of the two entries for `B` counts wherever `a` stands among them. -/
theorem parse_reads_entries_overridden :
    let m := ofList [(⟨'A'⟩, true), (⟨'B'⟩, false)]
    parse "B=1,a,b=0" = .ok m ∧ parse "a,B=1,b=0" = .ok m ∧ parse "b=0,a" = .ok m ∧
      parse " b =F ,, a" = .ok m := by
  intro m
  have hB : Gives ['B', '=', '1'] (some (⟨'B'⟩, true)) := readPiece_eq_ok_iff.1 rfl
  have ha : Gives ['a'] (some (⟨'A'⟩, true)) := readPiece_eq_ok_iff.1 rfl
  have hb : Gives ['b', '=', '0'] (some (⟨'B'⟩, false)) := readPiece_eq_ok_iff.1 rfl
  have hread : parse "B=1,a,b=0" = .ok m :=
    (parse_reads_entries.2.1 "B=1,a,b=0" m).2
      ⟨_, .cons hB (.cons ha (.cons hb .nil)), lastWins_iff.2 rfl⟩
  have hswap : Rearranged (pieces "B=1,a,b=0") (pieces "a,B=1,b=0") := by
    refine Rearranged.swap [['b', '=', '0']] fun x hx hx' => ?_
    cases (hB.names_iff.1 hx).symm.trans (ha.names_iff.1 hx')
  have hapart : (pieces "a,b=0").Pairwise Apart := by
    refine List.pairwise_pair.2 fun x hx hx' => ?_
    cases (ha.names_iff.1 hx).symm.trans (hb.names_iff.1 hx')
  have hperm : (pieces "a,b=0").Perm (pieces "b=0,a") := List.Perm.swap _ _ []
  have hname : Spells [' ', 'a'] (some (⟨'A'⟩, true)) :=
    .bare (u := [' ']) (v := []) (by simp; rfl) ⟨rfl, rfl⟩
  have hvalue : Spells [' ', 'b', ' ', '=', 'F', ' '] (some (⟨'B'⟩, false)) :=
    .valued (u := [' ']) (v := [' ']) (x := []) (y := [' ']) (w := ['F'])
      (by simp; rfl) ⟨rfl, rfl⟩ (by simp [IsWord, words])
  have hspelled : parse (joined [[' ', 'b', ' ', '=', 'F', ' '], [], [' ', 'a']]) = .ok m :=
    parse_reads_entries.2.2.2.1 m _ [some (⟨'B'⟩, false), none, some (⟨'A'⟩, true)]
      (.cons hvalue (.cons (.blank (List.forall_mem_nil _)) (.cons hname .nil))) (.swap _ _ [])
  refine ⟨hread, parse_reads_entries.2.2.2.2.1 "B=1,a,b=0" "a,B=1,b=0" m hswap hread,
    parse_reads_entries.2.2.2.2.2 "a,b=0" "b=0,a" m hperm hapart rfl, hspelled⟩

end Sentential.Assignment
