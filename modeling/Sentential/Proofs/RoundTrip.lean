import Sentential.Formula.Printer
import Sentential.Proofs.Climbing
import Sentential.Proofs.Lexing

/-!
# What is printed is read back

The printed form is fully parenthesised, so its tokens follow the formula
constructor by constructor (`tokens`) and are an operand of the grammar with
the formula as its tree. What remains is to see that the text has these tokens:
that the scan finds them one after another whatever follows, a sign with the
blanks around it at a time, and that trimming, the change to capitals and the
search for digits have nothing to do in the printed form of a well-formed
formula.

Conversely only letters become atoms on the way from a text to its tokens, and
a tree has no atoms but those of its tokens. So exactly the well-formed
formulas are read from a text, and each of them from its printed form.
-/

namespace Sentential.Formula

/-- The tokens of the printed form. -/
def tokens : Formula → List Token
  | atom a => [.atom a]
  | not f => .not :: f.tokens
  | binary c l r => .opening :: (l.tokens ++ .connective c :: (r.tokens ++ [.closing]))

theorem derives_tokens (f : Formula) : Derives .operand f.tokens f := by
  induction f with
  | atom a => exact .atom a
  | not f ih => exact .not ih
  | binary c l r ihl ihr =>
      have hbinary : Derives (.chain .iff) (l.tokens ++ .connective c :: r.tokens)
          (.binary c l r) :=
        (derives_binary ⟨_, _, ihl⟩ ⟨_, _, ihr⟩ c).mono (Stratum.level_le_iff (.chain c))
      have hgroup := Derives.group hbinary
      rw [List.append_assoc] at hgroup
      exact hgroup

/-- A tree has the atoms of its tokens. -/
theorem Derives.wellFormed_iff {s : Stratum} {ts : List Token} {f : Formula}
    (h : Derives s ts f) : f.WellFormed ↔ ∀ t ∈ ts, t.WellFormed := by
  induction h with
  | atom a =>
      rw [List.forall_mem_singleton]
      exact Iff.rfl
  | @not ts f h ih =>
      rw [List.forall_mem_cons]
      exact ⟨fun hf => ⟨trivial, ih.1 hf⟩, fun hts => ih.2 hts.2⟩
  | @group ts f h ih =>
      rw [List.forall_mem_cons, List.forall_mem_append, List.forall_mem_singleton]
      exact ⟨fun hf => ⟨trivial, ih.1 hf, trivial⟩, fun hts => ih.2 hts.2.1⟩
  | single h ih => exact ih
  | @link c ls rs l r hl hr ihl ihr =>
      rw [List.forall_mem_append, List.forall_mem_cons]
      exact ⟨fun hf => ⟨ihl.1 hf.1, trivial, ihr.1 hf.2⟩,
        fun hts => ⟨ihl.2 hts.1, ihr.2 hts.2.2⟩⟩

theorem spaced_tokens (f : Formula) : Token.Spaced false f.tokens := by
  induction f with
  | atom a => exact ⟨rfl, trivial⟩
  | not f ih => exact ⟨rfl, ih⟩
  | binary c l r ihl ihr =>
      have hend : Token.Spaced false (r.tokens ++ [.closing]) := ihr.append_cons rfl trivial
      exact ⟨rfl, ihl.append_cons rfl hend⟩

/-! ## The characters of the printed form -/

theorem scan_letter {a : Atom} (h : a.IsLetter) (tail : List Char) :
    Lexeme.scan (a.symbol :: tail) = .char a.symbol :: Lexeme.scan tail :=
  Lexeme.scan_char tail (h.symbol_ne rfl) (h.symbol_ne rfl) h.isBlank

/-- The blanks around a sign go with it. -/
theorem scan_sign (c : Connective) (tail : List Char) :
    Lexeme.scan (' ' :: (c.chars ++ ' ' :: tail)) =
      (Token.connective c).lexeme :: Lexeme.scan tail := by
  cases c <;> simp [Connective.chars, Lexeme.scan, Text.isBlank, Text.blankRanges, Token.lexeme]

theorem scan_charsOnto {f : Formula} (h : f.WellFormed) (tail : List Char) :
    Lexeme.scan (f.charsOnto tail) = f.tokens.map Token.lexeme ++ Lexeme.scan tail := by
  induction f generalizing tail with
  | atom a => exact scan_letter h tail
  | not f ih =>
      show Lexeme.scan ('~' :: f.charsOnto tail) = _
      rw [Lexeme.scan_char _ (by decide) (by decide) rfl, ih h]
      rfl
  | binary c l r ihl ihr =>
      rw [charsOnto, Lexeme.scan_char _ (by decide) (by decide) rfl, ihl h.1, scan_sign, ihr h.2,
        Lexeme.scan_char _ (by decide) (by decide) rfl]
      simp [tokens, Token.lexeme]

theorem plain_of_mem_chars {f : Formula} (h : f.WellFormed) :
    ∀ c ∈ f.chars, c.isLower = false ∧ c.isDigit = false := by
  have hsign : ∀ c : Connective, ∀ x ∈ c.chars, x.isLower = false ∧ x.isDigit = false := by
    intro c x hx
    have hall : (c.chars.all fun x => !x.isLower && !x.isDigit) = true := by
      cases c <;> rfl
    simpa using List.all_eq_true.1 hall x hx
  induction f with
  | atom a =>
      have ha : a.IsLetter := h
      rw [chars_atom, List.forall_mem_singleton]
      exact ⟨Bool.eq_false_iff.2 (Char.not_isLower_of_isUpper ha), ha.isDigit⟩
  | not f ih =>
      rw [chars_not, List.forall_mem_cons]
      exact ⟨⟨rfl, rfl⟩, ih h⟩
  | binary c l r ihl ihr =>
      rw [chars_binary]
      simp only [List.forall_mem_cons, List.forall_mem_append]
      exact ⟨⟨rfl, rfl⟩, ihl h.1, ⟨rfl, rfl⟩, hsign c, ⟨rfl, rfl⟩, ihr h.2, ⟨rfl, rfl⟩,
        List.forall_mem_nil _⟩

theorem isBlank_of_head?_chars {f : Formula} (h : f.WellFormed) :
    ∀ c ∈ f.chars.head?, Text.isBlank c = false := by
  intro c hc
  cases f with
  | atom a =>
      cases hc
      exact Atom.IsLetter.isBlank h
  | not f =>
      cases hc
      rfl
  | binary c l r =>
      cases hc
      rfl

theorem isBlank_of_getLast?_chars {f : Formula} (h : f.WellFormed) :
    ∀ c ∈ f.chars.getLast?, Text.isBlank c = false := by
  induction f with
  | atom a =>
      intro c hc
      cases hc
      exact Atom.IsLetter.isBlank h
  | not f ih =>
      intro c hc
      rw [chars_not, List.getLast?_cons, Option.mem_some_iff] at hc
      cases hf : f.chars.getLast? with
      | none =>
          rw [hf] at hc
          cases hc
          rfl
      | some d =>
          rw [hf] at hc
          cases hc
          exact ih h d hf
  | binary c l r =>
      intro x hx
      have hlast : (binary c l r).chars.getLast? = some ')' := by
        rw [chars_binary]
        simp [List.getLast?_cons]
      rw [hlast] at hx
      cases hx
      rfl

theorem chars_ne_nil (f : Formula) : f.chars ≠ [] := by
  cases f <;> exact List.cons_ne_nil _ _

/-! ## From the text and back -/

theorem ofChars_chars {f : Formula} (h : f.WellFormed) : Token.ofChars f.chars = .ok f.tokens := by
  have htrim : Text.trim f.chars = f.chars :=
    Text.trim_eq_self (isBlank_of_head?_chars h) (isBlank_of_getLast?_chars h)
  have hscan : Lexeme.scan f.chars = f.tokens.map Token.lexeme := by
    have honto := scan_charsOnto h []
    rw [Lexeme.scan, List.append_nil] at honto
    exact honto
  have htokens : ∀ t ∈ f.tokens, t.lexeme.token? = some t :=
    fun t ht => Token.token?_lexeme (f.derives_tokens.wellFormed_iff.1 h t ht)
  rw [Token.ofChars_eq f.chars_ne_nil htrim (plain_of_mem_chars h), hscan,
    Token.ofLexemes_eq_ok_iff, List.map_map]
  exact ⟨List.map_congr_left htokens, f.spaced_tokens⟩

theorem parse_text {f : Formula} (h : f.WellFormed) : parse f.text = .ok f := by
  unfold parse text
  rw [String.toList_ofList, ofChars_chars h]
  exact f.derives_tokens.ofTokens_eq

theorem wellFormed_of_parse {s : String} {f : Formula} (h : parse s = .ok f) : f.WellFormed := by
  unfold parse at h
  split at h
  · cases h
  · next ts hts =>
      exact (ofTokens_eq_ok_iff_derives.1 h).wellFormed_iff.2 (Token.wellFormed_of_ofChars hts)

theorem text_injective {f g : Formula} (hf : f.WellFormed) (hg : g.WellFormed)
    (h : f.text = g.text) : f = g := by
  have hparse : parse f.text = .ok g := h ▸ parse_text hg
  rw [parse_text hf] at hparse
  exact Except.ok.inj hparse

/-- Printing and reading are inverse to one another between the well-formed
formulas and the texts that can be read: the printed form is read back, a text
has the printed form of its formula as another spelling, well-formed formulas
print differently, and they are what can be read. -/
theorem parse_inverts_text :
    (∀ f : Formula, f.WellFormed → parse f.text = .ok f) ∧
    (∀ (s : String) (f : Formula), parse s = .ok f → f.WellFormed ∧ parse f.text = .ok f) ∧
    (∀ f g : Formula, f.WellFormed → g.WellFormed → f.text = g.text → f = g) ∧
    (∀ f : Formula, (∃ s, parse s = .ok f) ↔ f.WellFormed) := by
  refine ⟨fun f hf => parse_text hf, ?_, fun f g hf hg h => text_injective hf hg h, ?_⟩
  · intro s f h
    have hf : f.WellFormed := wellFormed_of_parse h
    exact ⟨hf, parse_text hf⟩
  · intro f
    constructor
    · intro h
      obtain ⟨s, hs⟩ := h
      exact wellFormed_of_parse hs
    · intro hf
      exact ⟨f.text, parse_text hf⟩

/-- The single arrow beside the double one that ends in it. -/
theorem parse_inverts_text_arrows :
    (binary .imply (not (binary .iff (atom ⟨'A'⟩) (atom ⟨'T'⟩))) (atom ⟨'B'⟩)).WellFormed ∧
      parse "(~(A <-> T) -> B)" =
        .ok (binary .imply (not (binary .iff (atom ⟨'A'⟩) (atom ⟨'T'⟩))) (atom ⟨'B'⟩)) := by
  have hf : (binary .imply (not (binary .iff (atom ⟨'A'⟩) (atom ⟨'T'⟩)))
      (atom ⟨'B'⟩)).WellFormed := by decide
  exact ⟨hf, parse_inverts_text.1 _ hf⟩

end Sentential.Formula
