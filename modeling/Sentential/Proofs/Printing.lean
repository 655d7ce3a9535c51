import Sentential.Report

/-!
# What is printed

A run writes formulas, truth values, assignments and the reasons of errors. Each kind is
described here by the characters that it is written with, as a relation that no part of the
printer occurs in. A formula has a pair of parentheses for every connective and a blank on
either side of the sign, an assignment has its entries between braces, and an index is written
in decimal digits.

The printer gives the one text that a relation admits, whatever the value (`Formula.prints_iff`,
`Assignment.prints_iff` and so on). So what a run writes can be said in characters, and a
change to the printer shows.
-/

namespace Sentential

/-! ## Formulas -/

/-- The sign of a connective. -/
inductive Connective.Prints : Connective → List Char → Prop
  | and : Prints .and ['&']
  | or : Prints .or ['|']
  | imply : Prints .imply ['-', '>']
  | iff : Prints .iff ['<', '-', '>']

theorem Connective.prints_iff {c : Connective} {cs : List Char} : c.Prints cs ↔ c.chars = cs := by
  refine ⟨fun h => ?_, fun h => ?_⟩
  · cases h <;> rfl
  · subst h
    cases c
    · exact .and
    · exact .or
    · exact .imply
    · exact .iff

namespace Formula

/-- The printed form of a formula. -/
inductive Prints : Formula → List Char → Prop
  | atom (a : Atom) : Prints (.atom a) [a.symbol]
  | not {f : Formula} {cs : List Char} (h : Prints f cs) : Prints (.not f) ('~' :: cs)
  | binary {c : Connective} {l r : Formula} {sign ls rs : List Char} (hc : c.Prints sign)
      (hl : Prints l ls) (hr : Prints r rs) :
      Prints (.binary c l r) (['('] ++ ls ++ [' '] ++ sign ++ [' '] ++ rs ++ [')'])

theorem prints_chars (f : Formula) : f.Prints f.chars := by
  induction f with
  | atom a => exact .atom a
  | not f ih => exact .not ih
  | binary c l r ihl ihr =>
      have h := Prints.binary (c := c) (Connective.prints_iff.2 rfl) ihl ihr
      simpa [chars_binary] using h

theorem prints_iff {f : Formula} {cs : List Char} : f.Prints cs ↔ f.text.toList = cs := by
  rw [text, String.toList_ofList]
  refine ⟨fun h => ?_, fun h => h ▸ prints_chars f⟩
  induction h with
  | atom a => rfl
  | not h ih => rw [chars_not, ih]
  | binary hc hl hr ihl ihr =>
      rw [chars_binary, ihl, ihr, Connective.prints_iff.1 hc]
      simp

end Formula

/-! ## Truth values and assignments -/

/-- A truth value in the report. -/
inductive Report.PrintsTruth : Bool → List Char → Prop
  | true : PrintsTruth true ['t', 'r', 'u', 'e']
  | false : PrintsTruth false ['f', 'a', 'l', 's', 'e']

theorem Report.printsTruth_iff {b : Bool} {cs : List Char} :
    PrintsTruth b cs ↔ (truth b).toList = cs := by
  refine ⟨fun h => ?_, fun h => ?_⟩
  · cases h <;> rfl
  · subst h
    cases b
    · exact .false
    · exact .true

namespace Assignment

inductive PrintsEntry : Atom × Bool → List Char → Prop
  | true (a : Atom) : PrintsEntry (a, true) [a.symbol, ':', ' ', 'T']
  | false (a : Atom) : PrintsEntry (a, false) [a.symbol, ':', ' ', 'F']

/-- Entries one after the other, with a comma and a blank between two. -/
inductive PrintsEntries : List (Atom × Bool) → List Char → Prop
  | none : PrintsEntries [] []
  | one {e : Atom × Bool} {cs : List Char} (h : PrintsEntry e cs) : PrintsEntries [e] cs
  | more {e e' : Atom × Bool} {es : List (Atom × Bool)} {cs ds : List Char}
      (h : PrintsEntry e cs) (hmore : PrintsEntries (e' :: es) ds) :
      PrintsEntries (e :: e' :: es) (cs ++ [',', ' '] ++ ds)

/-- The entries in the order of the atoms, between braces. -/
inductive Prints (m : Assignment) : List Char → Prop
  | braces {cs : List Char} (h : PrintsEntries m.entries cs) : Prints m (['{'] ++ cs ++ ['}'])

/-- The characters of an entry. -/
def entryChars (e : Atom × Bool) : List Char := [e.1.symbol, ':', ' ', if e.2 then 'T' else 'F']

theorem printsEntry_iff {e : Atom × Bool} {cs : List Char} :
    PrintsEntry e cs ↔ entryChars e = cs := by
  refine ⟨fun h => ?_, fun h => ?_⟩
  · cases h <;> rfl
  · subst h
    obtain ⟨a, v⟩ := e
    cases v
    · exact .false a
    · exact .true a

theorem printsEntries_iff {es : List (Atom × Bool)} {cs : List Char} :
    PrintsEntries es cs ↔ [',', ' '].intercalate (es.map entryChars) = cs := by
  refine ⟨fun h => ?_, fun h => ?_⟩
  · induction h with
    | none => rfl
    | one h => simp [printsEntry_iff.1 h]
    | more h hmore ih =>
        rw [List.map_cons] at ih
        rw [List.map_cons, List.map_cons, List.intercalate_cons_cons, ih, printsEntry_iff.1 h]
  · subst h
    induction es with
    | nil => exact .none
    | cons e es ih =>
        cases es with
        | nil =>
            rw [List.map_singleton, List.intercalate_singleton]
            exact .one (printsEntry_iff.2 rfl)
        | cons e' es =>
            rw [List.map_cons, List.map_cons, List.intercalate_cons_cons]
            exact .more (printsEntry_iff.2 rfl) ih

theorem toList_text (m : Assignment) :
    m.text.toList = ['{'] ++ [',', ' '].intercalate (m.entries.map entryChars) ++ ['}'] := by
  have hentry : ∀ e : Atom × Bool,
      (e.1.name ++ ": " ++ if e.2 then "T" else "F").toList = entryChars e := by
    intro e
    obtain ⟨a, v⟩ := e
    cases v <;> simp [Atom.name, entryChars]
  simp [text, String.toList_intercalate, Function.comp_def, hentry]

theorem prints_iff {m : Assignment} {cs : List Char} : m.Prints cs ↔ m.text.toList = cs := by
  rw [toList_text]
  refine ⟨fun h => ?_, fun h => h ▸ .braces (printsEntries_iff.2 rfl)⟩
  obtain ⟨hentries⟩ := h
  rw [printsEntries_iff.1 hentries]

end Assignment

/-! ## Reasons -/

inductive Token.Prints : Token → List Char → Prop
  | atom (a : Atom) : Prints (.atom a) [a.symbol]
  | not : Prints .not ['~']
  | connective {c : Connective} {cs : List Char} (h : c.Prints cs) : Prints (.connective c) cs
  | opening : Prints .opening ['(']
  | closing : Prints .closing [')']

theorem Token.prints_iff {t : Token} {cs : List Char} : t.Prints cs ↔ t.text.toList = cs := by
  rw [text, String.toList_ofList]
  refine ⟨fun h => ?_, fun h => ?_⟩
  · cases h with
    | connective h => exact Connective.prints_iff.1 h
    | atom | not | opening | closing => rfl
  · subst h
    cases t with
    | atom a => exact .atom a
    | not => exact .not
    | connective c => exact .connective (Connective.prints_iff.2 rfl)
    | opening => exact .opening
    | closing => exact .closing

/-- Why a text is not a formula, with indices in decimal digits. -/
inductive ParseError.Prints : ParseError → List Char → Prop
  | emptyInput : Prints .emptyInput "empty input".toList
  | disallowedCharacter (i : Nat) : Prints (.disallowedCharacter i)
      ("character at index ".toList ++ Nat.toDigits 10 i ++ " is not allowed".toList)
  | atomTooLong (i : Nat) : Prints (.atomTooLong i)
      ("atom starting at index ".toList ++ Nat.toDigits 10 i ++ " is longer than one letter".toList)
  | unknownOperator {t : Token} {cs : List Char} (h : t.Prints cs) : Prints (.unknownOperator t)
      ("'".toList ++ cs ++ "' is not a binary operator".toList)
  | unmatchedParenthesis (i : Nat) : Prints (.unmatchedParenthesis i)
      ("expected ')' at index ".toList ++ Nat.toDigits 10 i)
  | missingOperand (i : Nat) : Prints (.missingOperand i)
      ("expected an operand at index ".toList ++ Nat.toDigits 10 i)
  | operandAtEnd : Prints (.expectedAtEnd .operand) "expected an operand at end of input".toList
  | closingAtEnd : Prints (.expectedAtEnd .closingParenthesis)
      "expected ')' at end of input".toList
  | trailingInput : Prints .trailingInput "input was not fully consumed".toList

theorem ParseError.Prints.eq {e : ParseError} {cs : List Char} (h : e.Prints cs) :
    e.message.toList = cs := by
  rw [message.eq_def]
  cases h with
  | emptyInput | operandAtEnd | closingAtEnd | trailingInput => rfl
  | unknownOperator h =>
      rw [← Token.prints_iff.1 h]
      simp only [String.toList_append]
  | disallowedCharacter | atomTooLong | unmatchedParenthesis | missingOperand =>
      simp only [String.toList_append, Nat.toString_eq_repr, Nat.toList_repr]

theorem ParseError.prints_iff {e : ParseError} {cs : List Char} :
    e.Prints cs ↔ e.message.toList = cs := by
  have hprints : ∃ ds, e.Prints ds := by
    cases e with
    | emptyInput => exact ⟨_, .emptyInput⟩
    | disallowedCharacter i => exact ⟨_, .disallowedCharacter i⟩
    | atomTooLong i => exact ⟨_, .atomTooLong i⟩
    | unknownOperator t => exact ⟨_, .unknownOperator (Token.prints_iff.2 rfl)⟩
    | unmatchedParenthesis i => exact ⟨_, .unmatchedParenthesis i⟩
    | missingOperand i => exact ⟨_, .missingOperand i⟩
    | expectedAtEnd what =>
        cases what with
        | operand => exact ⟨_, .operandAtEnd⟩
        | closingParenthesis => exact ⟨_, .closingAtEnd⟩
    | trailingInput => exact ⟨_, .trailingInput⟩
  -- Whatever is printed is the message, so the message is printed.
  obtain ⟨ds, hds⟩ := hprints
  refine ⟨fun h => h.eq, fun h => ?_⟩
  rw [← h, hds.eq]
  exact hds

/-- Why a text is not an assignment. -/
inductive AssignmentError.Prints : AssignmentError → List Char → Prop
  | name (name : String) : Prints (.name ⟨name⟩)
      ("'".toList ++ name.toList ++ "' is not a valid atom name".toList)
  | value (raw : String) : Prints (.value raw)
      ("'".toList ++ raw.toList ++ "' is not a truth value".toList)

theorem AssignmentError.prints_iff {e : AssignmentError} {cs : List Char} :
    e.Prints cs ↔ e.message.toList = cs := by
  refine ⟨fun h => ?_, fun h => ?_⟩
  · cases h <;> simp [message, InvalidName.message]
  · subst h
    cases e with
    | name e => simpa [message, InvalidName.message] using Prints.name e.name
    | value raw => simpa [message] using Prints.value raw

/-! ## Lines -/

theorem Report.toList_unlines (lines : List String) :
    (unlines lines).toList = (lines.map String.toList).flatMap (· ++ ['\n']) := by
  simp [unlines, String.toList_join, List.flatMap_map]

/-- The exit code of a run and the lines that it writes, first those of the output and then
those of the errors. Each line is followed by a line end. -/
structure Outcome.Shows (o : Outcome) (code : Nat) (out err : List (List Char)) : Prop where
  code : o.code = code
  stdout : o.stdout.toList = out.flatMap (· ++ ['\n'])
  stderr : o.stderr.toList = err.flatMap (· ++ ['\n'])

namespace Outcome

variable {o o' : Outcome} {code : Nat} {out err : List (List Char)}

theorem Shows.unique (h : o.Shows code out err) (h' : o'.Shows code out err) : o = o' := by
  have hcode : o.code = o'.code := h.code.trans h'.code.symm
  have hstdout : o.stdout = o'.stdout := String.toList_inj.1 (h.stdout.trans h'.stdout.symm)
  have hstderr : o.stderr = o'.stderr := String.toList_inj.1 (h.stderr.trans h'.stderr.symm)
  cases o
  cases o'
  cases hcode
  cases hstdout
  cases hstderr
  rfl

/-- Some outcome has the code and writes the lines. -/
theorem exists_shows (code : Nat) (out err : List (List Char)) :
    ∃ o : Outcome, o.Shows code out err :=
  ⟨⟨code, .ofList (out.flatMap (· ++ ['\n'])), .ofList (err.flatMap (· ++ ['\n']))⟩,
    rfl, String.toList_ofList, String.toList_ofList⟩

theorem shows_unlines (code : Nat) (out err : List String) :
    Shows ⟨code, Report.unlines out, Report.unlines err⟩ code (out.map String.toList)
      (err.map String.toList) :=
  ⟨rfl, Report.toList_unlines out, Report.toList_unlines err⟩

end Outcome

end Sentential
