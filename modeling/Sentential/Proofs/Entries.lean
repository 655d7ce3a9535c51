import Sentential.Assignment.Text
import Sentential.Proofs.Spelling

/-!
# What a piece of an assignment text says

What stands between two commas of an assignment text is trimmed, cut at its first equals
sign, trimmed again on either side, and compared in one case of letters. Here that is a
relation between the piece and the entry it gives (`Gives`), and one between the piece and
the error it is refused with (`Refuses`): neither names the functions that read, and every
piece is in exactly one of them. A second relation goes the other way and lists the ways
to write an entry down (`Spells`).

The equals sign is looked for before the blanks around it are gone. So the value of a
refused entry is quoted with its blanks, and its name, which is trimmed and in capitals
when it is compared, is quoted without.
-/

namespace Sentential.Assignment

variable {entry piece name value : List Char} {o : Option (Atom × Bool)} {e : AssignmentError}

/-! ## Truth values -/

/-- The words for a truth value, in small letters. -/
def words : Bool → List (List Char)
  | true => [['1'], ['t'], ['t', 'r', 'u', 'e']]
  | false => [['0'], ['f'], ['f', 'a', 'l', 's', 'e']]

theorem truthValue?_eq_some_iff {w : List Char} {v : Bool} :
    truthValue? w = some v ↔ w ∈ words v := by
  refine ⟨fun h => ?_, fun h => ?_⟩
  · unfold truthValue? at h
    split at h <;> cases h <;> simp [words]
  · cases v <;> simp only [words, List.mem_cons, List.not_mem_nil, or_false] at h <;>
      rcases h with rfl | rfl | rfl <;> rfl

theorem truthValue?_eq_none_iff {w : List Char} :
    truthValue? w = none ↔ ∀ v, w ∉ words v := by
  simp only [Option.eq_none_iff_forall_ne_some, ne_eq, truthValue?_eq_some_iff]

/-! ## The first equals sign -/

/-- An entry is a name and a value with an equals sign in between, the first that there
is. The value of an entry without the sign is `1`. -/
inductive Division : List Char → List Char → List Char → Prop
  | sign {name value : List Char} : '=' ∉ name → Division (name ++ '=' :: value) name value
  | bare {name : List Char} : '=' ∉ name → Division name name ['1']

theorem splitEntry_of_division (h : Division entry name value) :
    splitEntry entry = (name, value) := by
  have hspan : ∀ rest : List Char, '=' ∉ name → rest.takeWhile (· ≠ '=') = [] →
      rest.dropWhile (· ≠ '=') = rest → (name ++ rest).span (· ≠ '=') = (name, rest) := by
    intro rest hname htake hdrop
    have hpos : ∀ c ∈ name, decide (c ≠ '=') = true := by
      intro c hc
      exact decide_eq_true (ne_of_mem_of_not_mem hc hname)
    rw [List.span_eq_takeWhile_dropWhile, List.takeWhile_append_of_pos hpos,
      List.dropWhile_append_of_pos hpos, htake, hdrop, List.append_nil]
  cases h with
  | sign hname => rw [splitEntry, hspan _ hname (by simp) (by simp)]
  | bare hname =>
      have hnil := hspan [] hname rfl rfl
      rw [List.append_nil] at hnil
      rw [splitEntry, hnil]

theorem exists_division (entry : List Char) : ∃ name value, Division entry name value := by
  by_cases h : '=' ∈ entry
  · obtain ⟨name, value, rfl, hname⟩ := List.eq_append_cons_of_mem h
    exact ⟨name, value, .sign hname⟩
  · exact ⟨entry, ['1'], .bare h⟩

/-! ## A piece and its entry -/

/-- A name as it is compared. -/
def capitals (name : List Char) : List Char := (Text.trim name).map Char.toUpper

/-- A value as it is compared. -/
def smalls (value : List Char) : List Char := (Text.trim value).map Char.toLower

/-- What a piece between commas gives: nothing if it is blank, and otherwise an entry. -/
inductive Gives (piece : List Char) : Option (Atom × Bool) → Prop
  | blank : Text.trim piece = [] → Gives piece none
  | entry {name value : List Char} {a : Atom} {v : Bool} : Text.trim piece ≠ [] →
      Division (Text.trim piece) name value → a.IsLetter → capitals name = [a.symbol] →
      smalls value ∈ words v → Gives piece (some (a, v))

/-- What a piece is refused with. The value is looked at only if the name is a letter. -/
inductive Refuses (piece : List Char) : AssignmentError → Prop
  | name {name value : List Char} : Text.trim piece ≠ [] →
      Division (Text.trim piece) name value →
      (∀ a : Atom, a.IsLetter → capitals name ≠ [a.symbol]) →
      Refuses piece (.name ⟨String.ofList (capitals name)⟩)
  | value {name value : List Char} {a : Atom} : Text.trim piece ≠ [] →
      Division (Text.trim piece) name value → a.IsLetter → capitals name = [a.symbol] →
      (∀ v, smalls value ∉ words v) → Refuses piece (.value (String.ofList value))

/-- Every piece gives something or is refused. -/
theorem exists_gives_or_refuses (piece : List Char) :
    (∃ o, Gives piece o) ∨ ∃ e, Refuses piece e := by
  by_cases hblank : Text.trim piece = []
  · exact .inl ⟨none, .blank hblank⟩
  · obtain ⟨name, value, hdiv⟩ := exists_division (Text.trim piece)
    by_cases hname : ∃ a : Atom, a.IsLetter ∧ capitals name = [a.symbol]
    · obtain ⟨a, hletter, ha⟩ := hname
      by_cases hvalue : ∃ v, smalls value ∈ words v
      · obtain ⟨v, hv⟩ := hvalue
        exact .inl ⟨some (a, v), .entry hblank hdiv hletter ha hv⟩
      · exact .inr ⟨_, .value hblank hdiv hletter ha (not_exists.1 hvalue)⟩
    · exact .inr ⟨_, .name hblank hdiv fun a hletter ha => hname ⟨a, hletter, ha⟩⟩

/-- A piece, blank or not, as it is read. -/
def readPiece (piece : List Char) : Except AssignmentError (Option (Atom × Bool)) :=
  if Text.trim piece = [] then .ok none else (readEntry (Text.trim piece)).map some

theorem readPiece_of_division (hblank : Text.trim piece ≠ [])
    (h : Division (Text.trim piece) name value) :
    readPiece piece = match Atom.ofName (String.ofList (capitals name)) with
      | .error e => .error (.name e)
      | .ok a => match truthValue? (smalls value) with
        | none => .error (.value (String.ofList value))
        | some v => .ok (some (a, v)) := by
  rw [readPiece, if_neg hblank, readEntry, splitEntry_of_division h]
  dsimp only [capitals, smalls]
  cases Atom.ofName (String.ofList ((Text.trim name).map Char.toUpper)) with
  | error e => rfl
  | ok a => cases truthValue? ((Text.trim value).map Char.toLower) <;> rfl

theorem ofName_capitals {a : Atom} (hletter : a.IsLetter) (ha : capitals name = [a.symbol]) :
    Atom.ofName (String.ofList (capitals name)) = .ok a :=
  Atom.ofName_eq_ok_iff.2 ⟨by rw [String.toList_ofList, ha], hletter⟩

theorem Gives.readPiece (h : Gives piece o) : readPiece piece = .ok o := by
  cases h with
  | blank hblank => exact if_pos hblank
  | entry hblank hdiv hletter ha hv =>
      rw [readPiece_of_division hblank hdiv, ofName_capitals hletter ha]
      simp only [truthValue?_eq_some_iff.2 hv]

theorem Refuses.readPiece (h : Refuses piece e) : readPiece piece = .error e := by
  cases h with
  | name hblank hdiv ha =>
      rw [readPiece_of_division hblank hdiv, Atom.ofName_eq_error]
      rw [String.toList_ofList]
      exact ha
  | value hblank hdiv hletter ha hv =>
      rw [readPiece_of_division hblank hdiv, ofName_capitals hletter ha]
      simp only [truthValue?_eq_none_iff.2 hv]

theorem readPiece_eq_ok_iff : readPiece piece = .ok o ↔ Gives piece o := by
  refine ⟨fun h => ?_, Gives.readPiece⟩
  rcases exists_gives_or_refuses piece with ⟨o', ho'⟩ | ⟨e, he⟩
  · cases ho'.readPiece.symm.trans h
    exact ho'
  · cases he.readPiece.symm.trans h

theorem readPiece_eq_error_iff : readPiece piece = .error e ↔ Refuses piece e := by
  refine ⟨fun h => ?_, Refuses.readPiece⟩
  rcases exists_gives_or_refuses piece with ⟨o, ho⟩ | ⟨e', he'⟩
  · cases ho.readPiece.symm.trans h
  · cases he'.readPiece.symm.trans h
    exact he'

example : readPiece " a = no ".toList = .error (.value " no") := rfl

theorem Gives.not_refuses (h : Gives piece o) : ¬ Refuses piece e := by
  intro he
  cases h.readPiece.symm.trans he.readPiece

/-! ## Ways to write an entry -/

/-- Blanks, commas and equals signs stand around names and values and not in them. -/
def separates (c : Char) : Bool := Text.isBlank c || c == ',' || c == '='

theorem separates_of_isLetter {a : Atom} (h : a.IsLetter) : separates a.symbol = false := by
  have hcomma : a.symbol ≠ ',' := h.symbol_ne rfl
  have hequals : a.symbol ≠ '=' := h.symbol_ne rfl
  simp [separates, h.isBlank, hcomma, hequals]

theorem separates_toUpper (c : Char) : separates c.toUpper = separates c := by
  refine Text.toUpper_congr (fun a ha => separates_of_isLetter ha) (fun c hc => ?_) c
  have hbounds := Text.bounds_of_isLower hc
  have hcomma : c ≠ ',' := fun heq => nomatch heq ▸ hc
  have hequals : c ≠ '=' := fun heq => nomatch heq ▸ hc
  have hblank : Text.isBlank c = false := Text.isBlank_eq_false (by omega) (by omega)
  simp [separates, hblank, hcomma, hequals]

theorem separates_of_toLower {c : Char} (h : separates c.toLower = false) :
    separates c = false := by
  by_cases hc : c.isUpper = true
  · exact separates_of_isLetter (a := ⟨c⟩) hc
  · rw [← Char.toLower_eq_of_not_isUpper hc, h]

theorem separates_of_mem_words {w : List Char} {v : Bool} (hw : w ∈ words v) {c : Char}
    (hc : c ∈ w) : separates c = false := by
  have hall : ((words v).all fun w => w.all fun c => !separates c) = true := by
    cases v <;> rfl
  simpa using List.all_eq_true.1 (List.all_eq_true.1 hall w hw) c hc

theorem separates_eq_false_iff {c : Char} :
    separates c = false ↔ Text.isBlank c = false ∧ c ≠ ',' ∧ c ≠ '=' := by
  simp [separates, and_assoc]

/-- The letter, in either case, that is the name of an atom. -/
structure IsName (c : Char) (a : Atom) : Prop where
  isLetter : a.IsLetter
  toUpper_eq : c.toUpper = a.symbol

/-- A word for a truth value, in letters of either case. -/
def IsWord (w : List Char) (v : Bool) : Prop := w.map Char.toLower ∈ words v

/-- The ways to write an entry down, and the ways to write down none. A name alone stands
for the value true. -/
inductive Spells : List Char → Option (Atom × Bool) → Prop
  | blank {piece : List Char} : (∀ s ∈ piece, Text.isBlank s = true) → Spells piece none
  | bare {u v : List Char} {c : Char} {a : Atom} : (∀ s ∈ u ++ v, Text.isBlank s = true) →
      IsName c a → Spells (u ++ c :: v) (some (a, true))
  | valued {u v w x y : List Char} {c : Char} {a : Atom} {b : Bool} :
      (∀ s ∈ u ++ (v ++ (x ++ y)), Text.isBlank s = true) → IsName c a → IsWord w b →
      Spells (u ++ (c :: v ++ '=' :: (x ++ (w ++ y)))) (some (a, b))

section

variable {u v w x y : List Char} {c : Char} {a : Atom} {b : Bool}

theorem IsName.separates (hc : IsName c a) : separates c = false := by
  rw [← separates_toUpper, hc.toUpper_eq, separates_of_isLetter hc.isLetter]

theorem IsName.isBlank (hc : IsName c a) : Text.isBlank c = false :=
  (separates_eq_false_iff.1 hc.separates).1

theorem IsName.notMem_cons (hc : IsName c a) (hv : ∀ s ∈ v, Text.isBlank s = true) :
    ',' ∉ c :: v ∧ '=' ∉ c :: v := by
  have hplain := (separates_eq_false_iff.1 hc.separates).2
  have hcomma : ',' ∉ v := fun hmem => nomatch hv ',' hmem
  have hequals : '=' ∉ v := fun hmem => nomatch hv '=' hmem
  simp [hcomma, hequals, hplain.1.symm, hplain.2.symm]

theorem IsName.trim (hc : IsName c a) (hu : ∀ s ∈ u, Text.isBlank s = true)
    (hv : ∀ s ∈ v, Text.isBlank s = true) : Text.trim (u ++ c :: v) = [c] := by
  have hself : Text.trim [c] = [c] :=
    Text.trim_eq_self (by simpa using hc.isBlank) (by simpa using hc.isBlank)
  rw [← hself, ← Text.trim_append_blanks [c] hu hv]
  rfl

theorem IsName.capitals (hc : IsName c a) (hv : ∀ s ∈ v, Text.isBlank s = true) :
    capitals (c :: v) = [a.symbol] := by
  have htrim : Text.trim (c :: v) = [c] := hc.trim (u := []) (List.forall_mem_nil _) hv
  rw [Assignment.capitals, htrim, ← hc.toUpper_eq]
  rfl

theorem IsWord.separates (hw : IsWord w b) : ∀ d ∈ w, separates d = false := by
  intro d hd
  exact separates_of_toLower (separates_of_mem_words hw (List.mem_map_of_mem hd))

theorem IsWord.isBlank (hw : IsWord w b) : ∀ d ∈ w, Text.isBlank d = false :=
  fun d hd => (separates_eq_false_iff.1 (hw.separates d hd)).1

theorem IsWord.ne_nil (hw : IsWord w b) : w ≠ [] := by
  intro hnil
  subst hnil
  cases b <;> simp [IsWord, words] at hw

theorem IsWord.smalls (hw : IsWord w b) (hx : ∀ s ∈ x, Text.isBlank s = true) :
    smalls (x ++ w) ∈ words b := by
  have hself : Text.trim w = w :=
    Text.trim_eq_self (fun d hd => hw.isBlank d (List.mem_of_head? hd))
      (fun d hd => hw.isBlank d (List.mem_of_getLast? hd))
  have htrim : Text.trim (x ++ (w ++ [])) = Text.trim w :=
    Text.trim_append_blanks w hx (List.forall_mem_nil _)
  rw [List.append_nil] at htrim
  rw [Assignment.smalls, htrim, hself]
  exact hw

/-- Between the blanks at its ends an entry starts with its name and ends with its
value. -/
theorem trim_valued (hc : IsName c a) (hw : IsWord w b)
    (hu : ∀ s ∈ u, Text.isBlank s = true) (hy : ∀ s ∈ y, Text.isBlank s = true) :
    Text.trim (u ++ (c :: v ++ '=' :: (x ++ (w ++ y)))) = c :: v ++ '=' :: (x ++ w) := by
  have hself : Text.trim (c :: v ++ '=' :: (x ++ w)) = c :: v ++ '=' :: (x ++ w) := by
    refine Text.trim_eq_self (fun d hd => ?_) fun d hd => ?_
    · cases hd
      exact hc.isBlank
    · have hassoc : c :: v ++ '=' :: (x ++ w) = (c :: v ++ '=' :: x) ++ w := by simp
      rw [hassoc, List.getLast?_append_of_ne_nil _ hw.ne_nil] at hd
      exact hw.isBlank d (List.mem_of_getLast? hd)
  have hassoc : c :: v ++ '=' :: (x ++ (w ++ y)) = (c :: v ++ '=' :: (x ++ w)) ++ y := by
    simp
  rw [hassoc, Text.trim_append_blanks _ hu hy, hself]

end

/-- However an entry is written down, it is what the piece gives. -/
theorem Spells.gives (h : Spells piece o) : Gives piece o := by
  cases h with
  | blank hblank => exact .blank (Text.trim_eq_nil_iff.2 hblank)
  | @bare u v c a hblank hc =>
      obtain ⟨hu, hv⟩ := List.forall_mem_append.1 hblank
      have htrim : Text.trim (u ++ c :: v) = [c] := hc.trim hu hv
      have hdiv : Division (Text.trim (u ++ c :: v)) [c] ['1'] := by
        rw [htrim]
        exact .bare (hc.notMem_cons (List.forall_mem_nil _)).2
      have hone : smalls ['1'] ∈ words true := List.mem_cons_self
      refine .entry ?_ hdiv hc.isLetter (hc.capitals (List.forall_mem_nil _)) hone
      rw [htrim]
      exact List.cons_ne_nil _ _
  | @valued u v w x y c a b hblank hc hw =>
      simp only [List.forall_mem_append] at hblank
      obtain ⟨hu, hv, hx, hy⟩ := hblank
      have htrim := trim_valued (v := v) (x := x) hc hw hu hy
      refine .entry ?_ (htrim ▸ .sign (hc.notMem_cons hv).2) hc.isLetter (hc.capitals hv)
        (hw.smalls hx)
      rw [htrim]
      exact List.cons_ne_nil _ _

/-- No way to write an entry has a comma in it. -/
theorem Spells.notMem_comma (h : Spells piece o) : ',' ∉ piece := by
  have hcomma : ∀ us : List Char, (∀ s ∈ us, Text.isBlank s = true) → ',' ∉ us :=
    fun us hus hmem => nomatch hus ',' hmem
  cases h with
  | blank hblank => exact hcomma _ hblank
  | @bare u v c a hblank hc =>
      obtain ⟨hu, hv⟩ := List.forall_mem_append.1 hblank
      rw [List.mem_append, not_or]
      exact ⟨hcomma u hu, (hc.notMem_cons hv).1⟩
  | @valued u v w x y c a b hblank hc hw =>
      simp only [List.forall_mem_append] at hblank
      obtain ⟨hu, hv, hx, hy⟩ := hblank
      have hvalue : ',' ∉ w := fun hmem =>
        (separates_eq_false_iff.1 (hw.separates _ hmem)).2.1 rfl
      have hname : ',' ∉ c :: v := (hc.notMem_cons hv).1
      simp only [List.mem_append, hcomma u hu, hname, List.mem_cons, hcomma x hx, hvalue,
        hcomma y hy, or_false]
      decide

end Sentential.Assignment
