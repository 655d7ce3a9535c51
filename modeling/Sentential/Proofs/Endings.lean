import Sentential.Proofs.Agreement
import Sentential.Proofs.Printing
import Sentential.Proofs.RoundTrip

/-!
# How a run ends

A report is made of parts that may fail, and it writes what stands before the
first failure. Six operations could fail in it, each for reasons of its own.
Five of them do not: what is reported on was read, so it is well-formed, its
negation normal form exists and has the shape that distribution asks for, both
decisions return and so does the search for models. Only the value is left, and
the value fails for one reason. That makes two endings of a report, and with
the two ways not to come to a report a run has four.

`Ends` has a constructor for each. What a constructor asks for is all that this
ending depends on: the first says nothing of the assignment, and no part of the
report is mentioned by the first two. What is written is given in lines of
characters, by the relations of `Printing`, so nothing of the printer is
mentioned by any of them.
-/

namespace Sentential

open Formula

/-! ## Parts of a report -/

namespace Report

/-- A part without failure is written, whatever comes later. -/
theorem upToFailure_cons_ok (lines : List String)
    (rest : List (Except FormulaError (List String))) :
    upToFailure (.ok lines :: rest) =
      (lines ++ (upToFailure rest).1, (upToFailure rest).2) := rfl

/-- The five lines that a report begins with: the formula, its normal forms,
and whether it is a tautology and whether it is a contradiction. -/
inductive Preamble (f : Formula) : List (List Char) → Prop
  | lines {n c : Formula} {valid contradictory : Bool} {fs ns cs vs ws : List Char}
      (hn : f.negationNormal = .ok n) (hc : n.conjunctiveNormal = .ok c)
      (hvalid : f.isTautology = .ok valid) (hcontradictory : f.isContradiction = .ok contradictory)
      (hfs : f.Prints fs) (hns : n.Prints ns) (hcs : c.Prints cs)
      (hvs : Report.PrintsTruth valid vs) (hws : Report.PrintsTruth contradictory ws) :
      Preamble f ["formula:       ".toList ++ fs, "nnf:           ".toList ++ ns,
        "cnf:           ".toList ++ cs, "tautology:     ".toList ++ vs,
        "contradiction: ".toList ++ ws]

/-- The line on the value, if there is an assignment. -/
inductive ValueLines (f : Formula) : Option Assignment → List (List Char) → Prop
  | none : ValueLines f none []
  | some {m : Assignment} {v : Bool} {vs : List Char} (hv : f.evaluate m = .ok v)
      (hvs : Report.PrintsTruth v vs) : ValueLines f (some m) ["value:         ".toList ++ vs]

/-- The lines on the models, if they are asked for: one for each model, in
ascending order. -/
inductive ModelLines (f : Formula) : Bool → List (List Char) → Prop
  | unwanted : ModelLines f false []
  | wanted {ms : List Assignment} {lines : List (List Char)} (hms : f.models = .ok ms)
      (hascending : ms.Pairwise fun m n => compare m n = .lt)
      (hlines : List.Forall₂ Assignment.Prints ms lines) : ModelLines f true lines

theorem exists_preamble {f : Formula} (h : f.WellFormed) : ∃ lines, Preamble f lines := by
  obtain ⟨valid, hvalid⟩ := (decidesValidity_isTautology h).returns
  exact ⟨_, .lines (negationNormal_eq h) (conjunctiveNormal_eq (isNnf_pushNegation h true)) hvalid
    (isContradiction_eq h) (Formula.prints_iff.2 rfl) (Formula.prints_iff.2 rfl)
    (Formula.prints_iff.2 rfl) (Report.printsTruth_iff.2 rfl) (Report.printsTruth_iff.2 rfl)⟩

theorem forall₂_prints_iff {ms : List Assignment} {lines : List (List Char)} :
    List.Forall₂ Assignment.Prints ms lines ↔
      (ms.map Assignment.text).map String.toList = lines := by
  rw [List.map_map, ← List.forall₂_eq_eq_eq, List.forall₂_map_left_iff]
  exact ⟨fun h => h.imp fun _ _ => Assignment.prints_iff.1,
    fun h => h.imp fun _ _ => Assignment.prints_iff.2⟩

theorem exists_modelLines {f : Formula} (h : f.WellFormed) (wanted : Bool) :
    ∃ lines, ModelLines f wanted lines := by
  cases wanted with
  | false => exact ⟨[], .unwanted⟩
  | true =>
      exact ⟨_, .wanted (models_eq h) (pairwise_satisfying f) (forall₂_prints_iff.2 rfl)⟩

/-- The parts after the preamble. -/
def later (f : Formula) (m? : Option Assignment) (models : Bool) :
    List (Except FormulaError (List String)) :=
  m?.toList.map (fun m => (f.evaluate m).map fun b => ["value:         " ++ truth b]) ++
    if models then [f.models.map (·.map Assignment.text)] else []

theorem forms_eq {f n c : Formula} (hn : f.negationNormal = .ok n)
    (hc : n.conjunctiveNormal = .ok c) :
    forms f = .ok ["formula:       " ++ f.text, "nnf:           " ++ n.text,
      "cnf:           " ++ c.text] := by
  rw [forms, hn]
  show (n.conjunctiveNormal >>= fun c => _) = _
  rw [hc]
  rfl

/-- The parts of the preamble do not fail, and they are its lines. -/
theorem exists_parts_eq {f : Formula} {five : List (List Char)} (h : Preamble f five)
    (m? : Option Assignment) (models : Bool) :
    ∃ first second third, parts f m? models =
        .ok first :: .ok second :: .ok third :: later f m? models ∧
      (first ++ (second ++ third)).map String.toList = five := by
  obtain ⟨hn, hc, hvalid, hcontradictory, hfs, hns, hcs, hvs, hws⟩ := h
  rw [parts, forms_eq hn hc, hvalid, hcontradictory, List.append_assoc]
  refine ⟨_, _, _, rfl, ?_⟩
  -- Behind each label stands what the relations say.
  rw [← Formula.prints_iff.1 hfs, ← Formula.prints_iff.1 hns, ← Formula.prints_iff.1 hcs,
    ← Report.printsTruth_iff.1 hvs, ← Report.printsTruth_iff.1 hws]
  simp only [List.cons_append, List.nil_append, List.map_cons, List.map_nil, String.toList_append]

theorem upToFailure_parts {f : Formula} {five : List (List Char)} (h : Preamble f five)
    (m? : Option Assignment) (models : Bool) :
    ∃ strings, upToFailure (parts f m? models) =
        (strings ++ (upToFailure (later f m? models)).1, (upToFailure (later f m? models)).2) ∧
      strings.map String.toList = five := by
  obtain ⟨first, second, third, hparts, hfive⟩ := exists_parts_eq h m? models
  refine ⟨_, ?_, hfive⟩
  rw [hparts, upToFailure_cons_ok, upToFailure_cons_ok, upToFailure_cons_ok, List.append_assoc,
    List.append_assoc]

theorem upToFailure_models {f : Formula} {wanted : Bool} {lines : List (List Char)}
    (h : ModelLines f wanted lines) :
    ∃ strings, upToFailure (later f none wanted) = (strings, none) ∧
      strings.map String.toList = lines := by
  cases h with
  | unwanted => exact ⟨[], rfl, rfl⟩
  | @wanted ms lines hms _ hlines =>
      refine ⟨ms.map Assignment.text, ?_, forall₂_prints_iff.1 hlines⟩
      show upToFailure [f.models.map (·.map Assignment.text)] = _
      rw [hms]
      show (ms.map Assignment.text ++ [], none) = _
      rw [List.append_nil]

theorem upToFailure_later {f : Formula} {m? : Option Assignment} {wanted : Bool}
    {value list : List (List Char)} (hvalue : ValueLines f m? value)
    (hlist : ModelLines f wanted list) :
    ∃ strings, upToFailure (later f m? wanted) = (strings, none) ∧
      strings.map String.toList = value ++ list := by
  obtain ⟨strings, hmodels, hstrings⟩ := upToFailure_models hlist
  cases hvalue with
  | none => exact ⟨strings, hmodels, hstrings⟩
  | @some m v vs hv hvs =>
      refine ⟨("value:         " ++ truth v) :: strings, ?_, ?_⟩
      · show upToFailure ((f.evaluate m).map _ :: later f none wanted) = _
        rw [hv]
        show upToFailure (.ok _ :: later f none wanted) = _
        rw [upToFailure_cons_ok, hmodels]
        rfl
      · rw [List.map_cons, String.toList_append, Report.printsTruth_iff.1 hvs, hstrings]
        rfl

/-- Only the value can fail, and only for want of an entry. -/
theorem unassigned_of_mem_parts {f : Formula} (h : f.WellFormed) {m? : Option Assignment}
    {models : Bool} {e : FormulaError} (he : .error e ∈ parts f m? models) :
    ∃ a, e = .unassigned a := by
  obtain ⟨five, hfive⟩ := exists_preamble h
  obtain ⟨first, second, third, hparts, _⟩ := exists_parts_eq hfive m? models
  have hlater : .error e ∈ later f m? models := by simpa [hparts] using he
  rcases List.mem_append.1 hlater with hvalue | hmodels
  · obtain ⟨m, _, hm⟩ := List.mem_map.1 hvalue
    rcases evaluate_cases h m with heval | ⟨a, _, _, heval⟩
    · rw [heval] at hm
      cases hm
    · rw [heval] at hm
      cases hm
      exact ⟨a, rfl⟩
  · cases models with
    | false => cases hmodels
    | true =>
        have hm := List.mem_singleton.1 hmodels
        rw [models_eq h] at hm
        cases hm

end Report

/-! ## The two endings of a report -/

theorem Outcome.shows_report_of_isLeastUnassigned {f : Formula} {m : Assignment} {a : Atom}
    {five : List (List Char)} (hf : f.WellFormed) (hfive : Report.Preamble f five)
    (ha : f.IsLeastUnassigned m a) (models : Bool) :
    (report f (some m) models).Shows 2 five
      ["error: no value assigned to atom ".toList ++ [a.symbol]] := by
  obtain ⟨strings, hparts, hstrings⟩ := Report.upToFailure_parts hfive (some m) models
  have hlater : Report.upToFailure (Report.later f (some m) models) =
      ([], some (.unassigned a)) := by
    show Report.upToFailure ((f.evaluate m).map _ :: Report.later f none models) = _
    rw [evaluate_of_isLeastUnassigned hf ha]
    rfl
  have hmessage : ("error: " ++ (FormulaError.unassigned a).message).toList =
      "error: no value assigned to atom ".toList ++ [a.symbol] := by
    show ("error: " ++ ("no value assigned to atom " ++ String.singleton a.symbol)).toList = _
    simp
  rw [report, hparts, hlater, List.append_nil, ← hstrings, ← hmessage]
  exact shows_unlines 2 strings [_]

theorem Outcome.shows_report_of_lines {f : Formula} {m? : Option Assignment} {models : Bool}
    {five value list : List (List Char)} (hfive : Report.Preamble f five)
    (hvalue : Report.ValueLines f m? value) (hlist : Report.ModelLines f models list) :
    (report f m? models).Shows 0 (five ++ value ++ list) [] := by
  obtain ⟨strings, hparts, hstrings⟩ := Report.upToFailure_parts hfive m? models
  obtain ⟨more, hlater, hmore⟩ := Report.upToFailure_later hvalue hlist
  rw [report, hparts, hlater, List.append_assoc, ← hstrings, ← hmore, ← List.map_append]
  exact shows_unlines 0 (strings ++ more) []

theorem Outcome.shows_refusal (reason : String) :
    (refusal reason).Shows 1 [] [reason.toList] := shows_unlines 1 [] [reason]

/-! ## The four endings of a run -/

namespace Request

/-- The text that is to be read: the one in the request, and if there is none, what the input
is in UTF-8. -/
inductive Asks (r : Request) (input : ByteArray) (text : String) : Prop
  | argument (h : r.formula = some text)
  | input (h : r.formula = none) (hinput : input = text.toUTF8)

theorem Asks.text?_eq {r : Request} {input : ByteArray} {text : String}
    (h : r.Asks input text) : r.text? input = some text := by
  cases h with
  | argument h => rw [text?, h]
  | input h hinput =>
      rw [text?, h, hinput]
      exact dif_pos text.isValidUTF8

end Request

/-- How a run on a text ends. -/
inductive Ends (r : Request) (text : String) (o : Outcome) : Prop
  /-- The text is not read, whatever is to be assigned. -/
  | unread {e : ParseError} {reason : List Char} (hread : Formula.parse text = .error e)
      (hreason : e.Prints reason) (hshows : o.Shows 1 [] ["parse error: ".toList ++ reason])
  /-- The formula is read, the assignment is not. -/
  | unassignable {f : Formula} {given : String} {e : AssignmentError} {reason : List Char}
      (hread : Formula.parse text = .ok f) (hgiven : r.assignment = some given)
      (hbad : Assignment.parse given = .error e) (hreason : e.Prints reason)
      (hshows : o.Shows 1 [] ["invalid assignment: ".toList ++ reason])
  /-- Both are read, and some free atom has no entry: the report stops before
  the value. -/
  | unvalued {f : Formula} {given : String} {m : Assignment} {a : Atom} {five : List (List Char)}
      (hread : Formula.parse text = .ok f) (hgiven : r.assignment = some given)
      (hgood : Assignment.parse given = .ok m) (hleast : f.IsLeastUnassigned m a)
      (hfive : Report.Preamble f five)
      (hshows : o.Shows 2 five ["error: no value assigned to atom ".toList ++ [a.symbol]])
  /-- The report is complete. -/
  | reported {f : Formula} {m? : Option Assignment} {five value list : List (List Char)}
      (hread : Formula.parse text = .ok f)
      (hgiven : r.assignment.map Assignment.parse = m?.map Except.ok)
      (hfive : Report.Preamble f five) (hvalue : Report.ValueLines f m? value)
      (hlist : Report.ModelLines f r.models list)
      (hshows : o.Shows 0 (five ++ value ++ list) [])

namespace Request

variable {r : Request} {input : ByteArray} {text : String}

theorem run_eq_of_ends (h : r.Asks input text) {o : Outcome} (ho : Ends r text o) :
    r.run input = o := by
  have htext := h.text?_eq
  unfold run
  simp only [htext]
  -- The run shows the code and the lines that the ending asks for, and they determine it.
  cases ho with
  | unread hread hreason hshows =>
      simp only [hread]
      rw [← ParseError.prints_iff.1 hreason, ← String.toList_append] at hshows
      exact (Outcome.shows_refusal _).unique hshows
  | unassignable hread hgiven hbad hreason hshows =>
      simp only [hread, hgiven, Option.map_some, hbad]
      rw [← AssignmentError.prints_iff.1 hreason, ← String.toList_append] at hshows
      exact (Outcome.shows_refusal _).unique hshows
  | unvalued hread hgiven hgood hleast hfive hshows =>
      simp only [hread, hgiven, Option.map_some, hgood]
      exact (Outcome.shows_report_of_isLeastUnassigned (wellFormed_of_parse hread) hfive hleast
        r.models).unique hshows
  | @reported f m? five value list hread hgiven hfive hvalue hlist hshows =>
      have hreport := (Outcome.shows_report_of_lines hfive hvalue hlist).unique hshows
      cases m? with
      | none => simp only [hread, hgiven, Option.map_none, hreport]
      | some m => simp only [hread, hgiven, Option.map_some, hreport]

theorem exists_ends (r : Request) (text : String) : ∃ o, Ends r text o := by
  cases hread : Formula.parse text with
  | error e =>
      obtain ⟨o, ho⟩ := Outcome.exists_shows 1 [] [_]
      exact ⟨o, .unread hread (ParseError.prints_iff.2 rfl) ho⟩
  | ok f =>
      have hf : f.WellFormed := wellFormed_of_parse hread
      obtain ⟨five, hfive⟩ := Report.exists_preamble hf
      obtain ⟨list, hlist⟩ := Report.exists_modelLines hf r.models
      cases hgiven : r.assignment with
      | none =>
          have hmap : r.assignment.map Assignment.parse =
              (none : Option Assignment).map Except.ok := by rw [hgiven]; rfl
          obtain ⟨o, ho⟩ := Outcome.exists_shows 0 (five ++ [] ++ list) []
          exact ⟨o, .reported hread hmap hfive .none hlist ho⟩
      | some given =>
          cases hparse : Assignment.parse given with
          | error e =>
              obtain ⟨o, ho⟩ := Outcome.exists_shows 1 [] [_]
              exact ⟨o, .unassignable hread hgiven hparse (AssignmentError.prints_iff.2 rfl) ho⟩
          | ok m =>
              cases hu : f.unassigned? m with
              | some a =>
                  obtain ⟨o, ho⟩ := Outcome.exists_shows 2 five [_]
                  exact ⟨o, .unvalued hread hgiven hparse (unassigned?_eq_some_iff.1 hu) hfive ho⟩
              | none =>
                  have hmap : r.assignment.map Assignment.parse =
                      (some m).map Except.ok := by rw [hgiven, Option.map_some, hparse]; rfl
                  have heval : f.evaluate m = .ok (f.value m) :=
                    evaluate_of_covers hf (unassigned?_eq_none_iff.1 hu)
                  have hvalue : Report.ValueLines f (some m) _ :=
                    .some heval (Report.printsTruth_iff.2 rfl)
                  obtain ⟨o, ho⟩ := Outcome.exists_shows 0 (five ++ _ ++ list) []
                  exact ⟨o, .reported hread hmap hfive hvalue hlist ho⟩

/-- A run on a text ends in exactly one of four ways, and what does not succeed
in the report that it gives is the value for want of an entry, nothing else. -/
theorem run_ends :
    (∀ r input text, Asks r input text → ∀ o, r.run input = o ↔ Ends r text o) ∧
    (∀ text f, Formula.parse text = .ok f → ∀ m? models e,
      .error e ∈ Report.parts f m? models → ∃ a, e = .unassigned a) := by
  refine ⟨fun r input text h o => ⟨fun hrun => ?_, fun ho => run_eq_of_ends h ho⟩, ?_⟩
  · obtain ⟨o', ho'⟩ := exists_ends r text
    rw [← hrun, run_eq_of_ends h ho']
    exact ho'
  · intro text f hread m? models e he
    exact Report.unassigned_of_mem_parts (wellFormed_of_parse hread) he

/-- `A & B`. -/
def twoLetters : Formula := binary .and (atom ⟨'A'⟩) (atom ⟨'B'⟩)

/-- What every report on `A & B` begins with. -/
def twoLettersLines : List String :=
  ["formula:       (A & B)", "nnf:           (A & B)", "cnf:           (A & B)",
    "tautology:     false", "contradiction: false"]

theorem preamble_twoLetters :
    Report.Preamble twoLetters (twoLettersLines.map String.toList) := by
  have hinvalid : twoLetters.isTautology = .ok false := by
    refine (decidesValidity_isTautology (by decide)).false_iff.2
      ⟨.ofList [(⟨'A'⟩, true), (⟨'B'⟩, false)], ?_, rfl⟩
    show ∀ a ∈ twoLetters.atoms.toList, a ∈ Assignment.ofList _
    decide
  have hprints : twoLetters.Prints "(A & B)".toList := Formula.prints_iff.2 rfl
  have hlines : Report.Preamble twoLetters (["formula:       " ++ "(A & B)",
      "nnf:           " ++ "(A & B)", "cnf:           " ++ "(A & B)", "tautology:     " ++ "false",
      "contradiction: " ++ "false"].map String.toList) := by
    simp only [List.map_cons, List.map_nil, String.toList_append]
    exact .lines (n := twoLetters) (c := twoLetters) rfl rfl hinvalid rfl hprints hprints hprints
      .false .false
  exact hlines

/-- With a value for `A` only, the models of `A & B` are asked for in vain. With values for both
the report is complete, and two letters in a row are refused before a look at the assignment. -/
theorem run_ends_unvalued :
    (Asks ⟨some "(A & B)", some "A=1", true⟩ ByteArray.empty "(A & B)" ∧
      Request.run ⟨some "(A & B)", some "A=1", true⟩ ByteArray.empty =
        ⟨2, "formula:       (A & B)\nnnf:           (A & B)\ncnf:           (A & B)\n" ++
          "tautology:     false\ncontradiction: false\n",
          "error: no value assigned to atom B\n"⟩) ∧
    (Asks ⟨none, some "A=1,B=0", true⟩ "(A & B)".toUTF8 "(A & B)" ∧
      Request.run ⟨none, some "A=1,B=0", true⟩ "(A & B)".toUTF8 =
        ⟨0, "formula:       (A & B)\nnnf:           (A & B)\ncnf:           (A & B)\n" ++
          "tautology:     false\ncontradiction: false\nvalue:         false\n" ++
          String.ofList ['{', 'A', ':', ' ', 'T', ',', ' ', 'B', ':', ' ', 'T', '}', '\n'], ""⟩) ∧
    (Asks ⟨some "AB", some "A=2", false⟩ ByteArray.empty "AB" ∧
      Request.run ⟨some "AB", some "A=2", false⟩ ByteArray.empty =
        ⟨1, "", "parse error: atom starting at index 0 is longer than one letter\n"⟩) ∧
    Formula.parse "(A & B)" = .ok twoLetters ∧
      .error (.unassigned ⟨'B'⟩) ∈ Report.parts twoLetters (some (.ofList [(⟨'A'⟩, true)])) true ∧
      ∃ a, FormulaError.unassigned ⟨'B'⟩ = .unassigned a := by
  obtain ⟨hends, hparts⟩ := run_ends
  have hread : Formula.parse "(A & B)" = .ok twoLetters :=
    parse_text (f := twoLetters) (by decide)
  have hgood : Assignment.parse "A=1" = .ok (.ofList [(⟨'A'⟩, true)]) := rfl
  have hboth : (some "A=1,B=0").map Assignment.parse =
      (some (.ofList [(⟨'A'⟩, true), (⟨'B'⟩, false)])).map .ok := rfl
  have hleast : twoLetters.IsLeastUnassigned (.ofList [(⟨'A'⟩, true)]) ⟨'B'⟩ :=
    unassigned?_eq_some_iff.1 rfl
  have hmodels : twoLetters.models = .ok [.ofList [(⟨'A'⟩, true), (⟨'B'⟩, true)]] := rfl
  have hmodel : Assignment.Prints (.ofList [(⟨'A'⟩, true), (⟨'B'⟩, true)])
      ['{', 'A', ':', ' ', 'T', ',', ' ', 'B', ':', ' ', 'T', '}'] := Assignment.prints_iff.2 rfl
  have hfirst : Asks ⟨some "(A & B)", some "A=1", true⟩ ByteArray.empty "(A & B)" := .argument rfl
  have hsecond : Asks ⟨none, some "A=1,B=0", true⟩ "(A & B)".toUTF8 "(A & B)" := .input rfl rfl
  have hthird : Asks ⟨some "AB", some "A=2", false⟩ ByteArray.empty "AB" := .argument rfl
  have hmem : .error (.unassigned ⟨'B'⟩) ∈
      Report.parts twoLetters (some (.ofList [(⟨'A'⟩, true)])) true :=
    List.mem_append_left _ (List.mem_append_right _ (List.mem_singleton.2 rfl))
  refine ⟨⟨hfirst, (hends _ _ _ hfirst _).2 ?_⟩, ⟨hsecond, (hends _ _ _ hsecond _).2 ?_⟩,
    ⟨hthird, (hends _ _ _ hthird _).2 ?_⟩, hread, hmem, hparts _ _ hread _ _ _ hmem⟩
  · have hshows := Outcome.shows_unlines 2 twoLettersLines
      ["error: no value assigned to atom " ++ "B"]
    rw [List.map_singleton, String.toList_append] at hshows
    exact .unvalued hread rfl hgood hleast preamble_twoLetters hshows
  · have hshows := Outcome.shows_unlines 0 (twoLettersLines ++ ["value:         " ++ "false"] ++
      [String.ofList ['{', 'A', ':', ' ', 'T', ',', ' ', 'B', ':', ' ', 'T', '}']]) []
    rw [List.map_append, List.map_append, List.map_singleton, List.map_singleton,
      String.toList_append, String.toList_ofList] at hshows
    exact .reported hread hboth preamble_twoLetters (.some rfl .false)
      (.wanted hmodels (List.pairwise_singleton _ _) (.cons hmodel .nil)) hshows
  · have hshows := Outcome.shows_unlines 1 []
      ["parse error: " ++ "atom starting at index 0 is longer than one letter"]
    rw [List.map_singleton, String.toList_append] at hshows
    exact .unread (e := .atomTooLong 0) rfl (ParseError.prints_iff.2 rfl) hshows

end Request

end Sentential
