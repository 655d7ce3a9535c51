import Mathlib
import Sentential.Token.Lexer

/-!
# One pass over the text

Lexemes are found in two rounds of joining, one for each arrow, and the
blanks are dropped after both. A single scan from the left does the same: at
each character it takes the longest arrow that starts there (`scan`). The two
agree because the first round leaves every `>` where it was unless it belongs
to a double arrow, so the second round finds a single arrow exactly where the
text has one that is not the end of a double arrow.

The scan is what can be followed along a text that is put together from
parts. The rest of the file says when the lexemes that it finds are tokens,
and what trimming and the change to capitals leave alone.
-/

namespace Sentential

/-! ## Letters -/

/-- Digits, letters and signs all lie between the space and the next blank. -/
theorem Text.isBlank_eq_false {c : Char} (hlow : 32 < c.toNat) (hhigh : c.toNat < 133) :
    isBlank c = false := by
  rw [Bool.eq_false_iff]
  intro hb
  simp only [isBlank, blankRanges, List.any_cons, List.any_nil, Bool.or_false,
    Bool.or_eq_true, Bool.and_eq_true, decide_eq_true_eq] at hb
  omega

namespace Atom

variable {a : Atom}

theorem IsLetter.bounds (h : a.IsLetter) :
    65 ≤ a.symbol.toNat ∧ a.symbol.toNat ≤ 90 := by
  have hupper : 'A'.val ≤ a.symbol.val ∧ a.symbol.val ≤ 'Z'.val := of_decide_eq_true h
  exact ⟨UInt32.le_iff_toNat_le.1 hupper.1, UInt32.le_iff_toNat_le.1 hupper.2⟩

theorem IsLetter.isDigit (h : a.IsLetter) : a.symbol.isDigit = false := by
  have hbounds := h.bounds
  have hle : ¬ a.symbol.val ≤ '9'.val := by
    intro h'
    have hle : a.symbol.toNat ≤ 57 := UInt32.le_iff_toNat_le.1 h'
    omega
  show (decide ('0'.val ≤ a.symbol.val) && decide (a.symbol.val ≤ '9'.val)) = false
  rw [decide_eq_false hle, Bool.and_false]

theorem IsLetter.isBlank (h : a.IsLetter) : Text.isBlank a.symbol = false := by
  have hbounds := h.bounds
  exact Text.isBlank_eq_false (by omega) (by omega)

theorem IsLetter.symbol_ne (h : a.IsLetter) {c : Char} (hc : c.isUpper = false) :
    a.symbol ≠ c := by
  intro heq
  rw [IsLetter, heq, hc] at h
  cases h

end Atom

/-! ## The scan -/

namespace Lexeme

/-- The lexemes of a text, found from the left in one pass. -/
def scan : List Char → List Lexeme
  | '<' :: '-' :: '>' :: rest => sign .iff :: scan rest
  | '-' :: '>' :: rest => sign .imply :: scan rest
  | c :: rest => if Text.isBlank c then scan rest else char c :: scan rest
  | [] => []

theorem joinDoubleArrows_cons {c : Char} {cs : List Char}
    (h : ∀ rest, c = '<' → cs = '-' :: '>' :: rest → False) :
    joinDoubleArrows ((c :: cs).map char) = char c :: joinDoubleArrows (cs.map char) := by
  rw [List.map_cons, joinDoubleArrows.eq_2]
  intro rest hc hcs
  obtain ⟨_, cs, rfl, hdash, hcs⟩ := List.map_eq_cons_iff.1 hcs
  obtain ⟨_, cs, rfl, hhead, _⟩ := List.map_eq_cons_iff.1 hcs
  cases hc
  cases hdash
  cases hhead
  exact h cs rfl rfl

/-- The first round of joining moves no `>` to the front. -/
theorem exists_of_joinDoubleArrows_eq {cs : List Char} {xs : List Lexeme}
    (h : joinDoubleArrows (cs.map char) = char '>' :: xs) : ∃ rest, cs = '>' :: rest := by
  rw [joinDoubleArrows.eq_def] at h
  split at h
  · cases h
  · next hcs =>
      cases h
      obtain ⟨_, rest, rfl, hhead, _⟩ := List.map_eq_cons_iff.1 hcs
      cases hhead
      exact ⟨rest, rfl⟩
  · cases h

theorem joinArrows_cons {c : Char} {xs : List Lexeme}
    (h : ∀ rest, c = '-' → xs = char '>' :: rest → False) :
    joinArrows (char c :: xs) = char c :: joinArrows xs := by
  rw [joinArrows.eq_2]
  intro rest hc hxs
  cases hc
  exact h rest rfl hxs

/-- A character that starts no arrow is a lexeme by itself. -/
theorem joinArrows_joinDoubleArrows_cons {c : Char} {cs : List Char}
    (hdouble : ∀ rest, c = '<' → cs = '-' :: '>' :: rest → False)
    (hsingle : ∀ rest, c = '-' → cs = '>' :: rest → False) :
    joinArrows (joinDoubleArrows ((c :: cs).map char)) =
      char c :: joinArrows (joinDoubleArrows (cs.map char)) := by
  rw [joinDoubleArrows_cons hdouble, joinArrows_cons]
  intro rest hc hrest
  obtain ⟨rest, hcs⟩ := exists_of_joinDoubleArrows_eq hrest
  exact hsingle rest hc hcs

theorem ofChars_eq_scan (cs : List Char) : ofChars cs = scan cs := by
  unfold ofChars
  fun_induction scan cs with
  | case1 rest ih =>
      show sign .iff :: _ = _
      rw [ih]
  | case2 rest ih =>
      -- The first round passes over both characters, the second joins them.
      have hdash : ∀ rest', '-' = '<' → '>' :: rest = '-' :: '>' :: rest' → False :=
        fun _ h => absurd h (by decide)
      have hhead : ∀ rest', '>' = '<' → rest = '-' :: '>' :: rest' → False :=
        fun _ h => absurd h (by decide)
      rw [joinDoubleArrows_cons hdash, joinDoubleArrows_cons hhead]
      show sign .imply :: _ = _
      rw [ih]
  | case3 c rest hdouble hsingle hb ih =>
      rw [joinArrows_joinDoubleArrows_cons hdouble hsingle, List.filter_cons_of_neg, ih]
      simpa [isBlank] using hb
  | case4 c rest hdouble hsingle hb ih =>
      rw [joinArrows_joinDoubleArrows_cons hdouble hsingle, List.filter_cons_of_pos, ih]
      simpa [isBlank] using hb
  | case5 => rfl

theorem scan_char {c : Char} (cs : List Char) (hdouble : c ≠ '<') (hsingle : c ≠ '-')
    (hblank : Text.isBlank c = false) : scan (c :: cs) = char c :: scan cs := by
  rw [scan.eq_3, if_neg (Bool.eq_false_iff.1 hblank)]
  · intro rest h
    exact absurd h hdouble
  · intro rest h
    exact absurd h hsingle

theorem scan_blank {b : Char} (hb : Text.isBlank b = true) (cs : List Char) :
    scan (b :: cs) = scan cs := by
  rw [scan.eq_3, if_pos hb]
  · intro rest h
    subst h
    exact absurd hb (by decide)
  · intro rest h
    subst h
    exact absurd hb (by decide)

end Lexeme

/-! ## Lexemes that are tokens -/

namespace Token

/-- An atom that is a letter, or no atom. -/
def WellFormed : Token → Prop
  | atom a => a.IsLetter
  | not | connective _ | opening | closing => True

/-- How a token looks in the text. -/
def lexeme : Token → Lexeme
  | atom a => .char a.symbol
  | not => .char '~'
  | connective .and => .char '&'
  | connective .or => .char '|'
  | connective .imply => .sign .imply
  | connective .iff => .sign .iff
  | opening => .char '('
  | closing => .char ')'

theorem token?_char {c : Char} (h : c.isUpper = true) :
    Lexeme.token? (.char c) = some (.atom ⟨c⟩) := by
  unfold Lexeme.token?
  split
  · next hc => cases hc; exact absurd h (by decide)
  · next hc => cases hc; exact absurd h (by decide)
  · next hc => cases hc; exact absurd h (by decide)
  · next hc => cases hc; exact absurd h (by decide)
  · next hc => cases hc; exact absurd h (by decide)
  · next hc =>
      cases hc
      exact if_pos h
  · next hc => cases hc

theorem token?_lexeme {t : Token} (h : t.WellFormed) : t.lexeme.token? = some t := by
  match t with
  | atom a => exact token?_char h
  | not | opening | closing => rfl
  | connective c => cases c <;> rfl

theorem wellFormed_of_token? {x : Lexeme} {t : Token} (h : x.token? = some t) :
    t.WellFormed := by
  unfold Lexeme.token? at h
  split at h
  · cases h; exact trivial
  · cases h; exact trivial
  · cases h; exact trivial
  · cases h; exact trivial
  · cases h; exact trivial
  · split at h
    · next hc =>
        cases h
        exact hc
    · cases h
  · cases h; exact trivial

/-- No letter follows a letter; `afterAtom` says whether one comes before. -/
def Spaced : Bool → List Token → Prop
  | _, [] => True
  | afterAtom, t :: ts => (afterAtom && t.isAtom) = false ∧ Spaced t.isAtom ts

/-- The lexemes pass exactly if each is a token and the letters are apart. -/
theorem ofLexemes_eq_ok_iff {i : Nat} {afterAtom : Bool} {xs : List Lexeme} {ts : List Token} :
    ofLexemes i afterAtom xs = .ok ts ↔
      xs.map Lexeme.token? = ts.map some ∧ Spaced afterAtom ts := by
  induction xs generalizing i afterAtom ts with
  | nil =>
      cases ts with
      | nil => exact iff_of_true rfl ⟨rfl, trivial⟩
      | cons t ts => exact iff_of_false nofun nofun
  | cons x xs ih =>
      rw [ofLexemes.eq_2, List.map_cons]
      constructor
      · intro h
        split at h
        · cases h
        · next t ht =>
            split at h
            · cases h
            · next hapart =>
                cases hrest : ofLexemes (i + 1) t.isAtom xs with
                | error e => rw [hrest] at h; cases h
                | ok us =>
                    rw [hrest] at h
                    cases h
                    obtain ⟨hus, hspaced⟩ := ih.1 hrest
                    rw [ht, hus]
                    exact ⟨rfl, Bool.eq_false_iff.2 hapart, hspaced⟩
      · intro h
        obtain ⟨hmap, hspaced⟩ := h
        cases ts with
        | nil => cases hmap
        | cons t us =>
            obtain ⟨ht, hus⟩ := List.cons.inj hmap
            rw [ht]
            simp only [hspaced.1, Bool.false_eq_true, if_false]
            rw [ih.2 ⟨hus, hspaced.2⟩]
            rfl

/-- A sign or a parenthesis keeps letters apart. -/
theorem Spaced.append_cons {afterAtom : Bool} {ls rs : List Token} {t : Token}
    (hl : Spaced afterAtom ls) (ht : t.isAtom = false) (hr : Spaced false rs) :
    Spaced afterAtom (ls ++ t :: rs) := by
  induction ls generalizing afterAtom with
  | nil =>
      refine ⟨?_, ?_⟩
      · rw [ht, Bool.and_false]
      · rw [ht]
        exact hr
  | cons l ls ih => exact ⟨hl.1, ih hl.2⟩

end Token

/-! ## What trimming and capitals leave alone -/

namespace Text

theorem trimStart_eq_self {cs : List Char} (h : ∀ c ∈ cs.head?, isBlank c = false) :
    trimStart cs = cs := by
  match cs with
  | [] => rfl
  | c :: cs =>
      have hc : ¬ isBlank c = true := Bool.eq_false_iff.1 (h c rfl)
      exact List.dropWhile_cons_of_neg hc

/-- A text without blanks at its ends stays as it is. -/
theorem trim_eq_self {cs : List Char} (hhead : ∀ c ∈ cs.head?, isBlank c = false)
    (hlast : ∀ c ∈ cs.getLast?, isBlank c = false) : trim cs = cs := by
  have hreverse : ∀ c ∈ cs.reverse.head?, isBlank c = false := by
    rw [List.head?_reverse]
    exact hlast
  have hend : cs.reverse.dropWhile isBlank = cs.reverse := trimStart_eq_self hreverse
  unfold trim trimEnd
  rw [trimStart_eq_self hhead, hend, List.reverse_reverse]

theorem bounds_of_isLower {c : Char} (h : c.isLower = true) :
    97 ≤ c.toNat ∧ c.toNat ≤ 122 := by
  have hlower : 'a'.val ≤ c.val ∧ c.val ≤ 'z'.val := by simpa [Char.isLower] using h
  exact ⟨UInt32.le_iff_toNat_le.1 hlower.1, UInt32.le_iff_toNat_le.1 hlower.2⟩

/-- The capital of a small letter is a letter. -/
theorem isLetter_toUpper {c : Char} (h : c.isLower = true) : (Atom.mk c.toUpper).IsLetter := by
  simp [Atom.IsLetter, Char.isAlpha, h]

/-- A property that no letter has is not touched by the change to capitals. -/
theorem toUpper_congr {p : Char → Bool} (hupper : ∀ a : Atom, a.IsLetter → p a.symbol = false)
    (hlower : ∀ c : Char, c.isLower = true → p c = false) (c : Char) : p c.toUpper = p c := by
  cases h : c.isLower with
  | true => rw [hlower c h, hupper ⟨c.toUpper⟩ (isLetter_toUpper h)]
  | false => rw [Char.toUpper_eq_of_not_isLower (Bool.eq_false_iff.1 h)]

theorem isDigit_toUpper (c : Char) : c.toUpper.isDigit = c.isDigit := by
  refine toUpper_congr (fun a ha => ha.isDigit) (fun c hc => ?_) c
  have hbounds := bounds_of_isLower hc
  have hle : ¬ c.val ≤ '9'.val := by
    intro h
    have hle : c.toNat ≤ 57 := UInt32.le_iff_toNat_le.1 h
    omega
  show (decide ('0'.val ≤ c.val) && decide (c.val ≤ '9'.val)) = false
  rw [decide_eq_false hle, Bool.and_false]

end Text

namespace Token

/-- Where the trimmed text has a digit, the first one is the fault. -/
theorem ofChars_eq_of_findIdx?_eq_some {cs : List Char} {i : Nat}
    (h : (Text.trim cs).findIdx? Char.isDigit = some i) :
    ofChars cs = .error (.disallowedCharacter i) := by
  have hne : (Text.trim cs).map Char.toUpper ≠ [] := by
    intro hnil
    rw [List.map_eq_nil_iff.1 hnil] at h
    cases h
  have hdigit : ((Text.trim cs).map Char.toUpper).findIdx? Char.isDigit = some i := by
    rw [List.findIdx?_map, ← h]
    exact congrArg (List.findIdx? · _) (funext Text.isDigit_toUpper)
  unfold ofChars
  simp only [if_neg hne, hdigit]

/-- A trimmed text without digits is scanned in capitals. -/
theorem ofChars_eq_ofLexemes {cs : List Char} (hne : Text.trim cs ≠ [])
    (hdigit : ∀ c ∈ Text.trim cs, c.isDigit = false) :
    ofChars cs = ofLexemes 0 false (Lexeme.scan ((Text.trim cs).map Char.toUpper)) := by
  have hupper : (Text.trim cs).map Char.toUpper ≠ [] := mt List.map_eq_nil_iff.1 hne
  have hdigits : ((Text.trim cs).map Char.toUpper).findIdx? Char.isDigit = none := by
    rw [List.findIdx?_eq_none_iff, List.forall_mem_map]
    exact fun c hc => by rw [Text.isDigit_toUpper, hdigit c hc]
  unfold ofChars
  simp only [if_neg hupper, hdigits, Lexeme.ofChars_eq_scan]

/-- A text without blanks at its ends, small letters and digits is scanned as
it stands. -/
theorem ofChars_eq {cs : List Char} (hne : cs ≠ []) (htrim : Text.trim cs = cs)
    (hplain : ∀ c ∈ cs, c.isLower = false ∧ c.isDigit = false) :
    ofChars cs = ofLexemes 0 false (Lexeme.scan cs) := by
  have hupper : cs.map Char.toUpper = cs := by
    refine (List.map_congr_left fun c hc => ?_).trans (List.map_id' cs)
    exact Char.toUpper_eq_of_not_isLower (Bool.eq_false_iff.1 (hplain c hc).1)
  rw [ofChars_eq_ofLexemes, htrim, hupper]
  · rw [htrim]
    exact hne
  · rw [htrim]
    exact fun c hc => (hplain c hc).2

/-- The tokens of a text are those of its lexemes, one by one. -/
theorem map_token?_of_ofChars {cs : List Char} {ts : List Token} (h : ofChars cs = .ok ts) :
    (Lexeme.scan ((Text.trim cs).map Char.toUpper)).map Lexeme.token? = ts.map some := by
  unfold ofChars at h
  simp only [Lexeme.ofChars_eq_scan] at h
  split at h
  · cases h
  · split at h
    · cases h
    · exact (ofLexemes_eq_ok_iff.1 h).1

theorem wellFormed_of_ofChars {cs : List Char} {ts : List Token} (h : ofChars cs = .ok ts) :
    ∀ t ∈ ts, t.WellFormed := by
  intro t ht
  have hmem : some t ∈ ts.map some := List.mem_map_of_mem ht
  rw [← map_token?_of_ofChars h] at hmem
  obtain ⟨x, _, hx⟩ := List.mem_map.1 hmem
  exact wellFormed_of_token? hx

end Token

end Sentential
