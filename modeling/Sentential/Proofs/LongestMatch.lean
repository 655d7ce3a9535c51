import Sentential.Proofs.Lexing

/-!
# The longest match, and the first fault

Two things are settled before a text has tokens. The one is where its lexemes
are. The scan takes an arrow where one starts and a single character elsewhere,
which is to say that it takes the longest lexeme there is (`LongestMatch`). Two
rounds of replacing come to the same, first of the long arrow and then of the
short one, each by a digit; the digits are free for that because a text with a
digit of its own has been refused by then.

The other is which fault is reported. A lexeme can be at fault for what it is,
or for being a letter next to a letter. The lexemes are gone through once with a
flag for the letter, and what is found is the fault at the least index. The
induction keeps the lexemes that are behind it, because the index counts them
and the flag is read off the last one, and what it knows of them is that none is
at fault.
-/

namespace Sentential

/-! ## The longest lexeme -/

namespace Lexeme

/-- The characters that a lexeme stands for. -/
def chars : Lexeme → List Char
  | char c => [c]
  | sign c => c.chars

/-- A lexeme of a text: an arrow, or a character that is no blank. -/
def Possible : Lexeme → Prop
  | char c => Text.isBlank c = false
  | sign c => c = .imply ∨ c = .iff

/-- The lexemes that are found from the left if blanks are passed over and the
longest possible lexeme is taken everywhere else. -/
inductive LongestMatch : List Char → List Lexeme → Prop
  | nil : LongestMatch [] []
  | blank {c : Char} {cs : List Char} {xs : List Lexeme} (hc : Text.isBlank c = true)
      (h : LongestMatch cs xs) : LongestMatch (c :: cs) xs
  | take {x : Lexeme} {cs : List Char} {xs : List Lexeme} (hx : x.Possible)
      (hlongest : ∀ y : Lexeme, y.Possible → y.chars <+: x.chars ++ cs →
        y.chars.length ≤ x.chars.length)
      (h : LongestMatch cs xs) : LongestMatch (x.chars ++ cs) (x :: xs)

theorem LongestMatch.scan_eq {cs : List Char} {xs : List Lexeme} (h : LongestMatch cs xs) :
    scan cs = xs := by
  induction h with
  | nil => rfl
  | blank hc h ih => rw [scan_blank hc, ih]
  | @take x cs xs hx hlongest h ih =>
      match x, hx with
      | char c, hx =>
          have hc : ¬ Text.isBlank c = true := Bool.eq_false_iff.1 hx
          show scan (c :: cs) = _
          rw [scan.eq_3, if_neg hc, ih]
          -- An arrow that starts here would be longer.
          · intro rest hhead hrest
            subst hhead hrest
            exact absurd (hlongest (sign .iff) (.inr rfl) ⟨rest, rfl⟩) (by decide)
          · intro rest hhead hrest
            subst hhead hrest
            exact absurd (hlongest (sign .imply) (.inl rfl) ⟨rest, rfl⟩) (by decide)
      | sign _, .inl rfl =>
          show sign .imply :: scan cs = _
          rw [ih]
      | sign _, .inr rfl =>
          show sign .iff :: scan cs = _
          rw [ih]

theorem longestMatch_scan (cs : List Char) : LongestMatch cs (scan cs) := by
  fun_induction scan cs with
  | case1 rest ih =>
      refine .take (x := sign .iff) (.inr rfl) (fun y hy _ => ?_) ih
      cases y with
      | char d => exact Nat.le_add_left 1 2
      | sign arrow => rcases hy with rfl | rfl <;> decide
  | case2 rest ih =>
      refine .take (x := sign .imply) (.inl rfl) (fun y hy hpre => ?_) ih
      cases y with
      | char d => exact Nat.le_succ 1
      | sign arrow =>
          rcases hy with rfl | rfl
          · exact Nat.le_refl 2
          · exact absurd (List.cons_prefix_cons.1 hpre).1 (by decide)
  | case3 c rest hdouble hsingle hb ih => exact .blank hb ih
  | case4 c rest hdouble hsingle hb ih =>
      refine .take (x := char c) (Bool.eq_false_iff.2 hb) (fun y hy hpre => ?_) ih
      cases y with
      | char d => exact Nat.le_refl 1
      | sign arrow =>
          obtain ⟨tail, htail⟩ := hpre
          rcases hy with rfl | rfl
          · obtain ⟨hhead, hrest⟩ := List.cons.inj htail
            exact False.elim (hsingle tail hhead.symm hrest.symm)
          · obtain ⟨hhead, hrest⟩ := List.cons.inj htail
            exact False.elim (hdouble tail hhead.symm hrest.symm)
  | case5 => exact .nil

theorem LongestMatch.possible {cs : List Char} {xs : List Lexeme} (h : LongestMatch cs xs) :
    ∀ x ∈ xs, x.Possible := by
  induction h with
  | nil => exact List.forall_mem_nil _
  | blank _ _ ih => exact ih
  | take hx _ _ ih => exact List.forall_mem_cons.2 ⟨hx, ih⟩

theorem longestMatch_iff {cs : List Char} {xs : List Lexeme} :
    LongestMatch cs xs ↔ scan cs = xs :=
  ⟨LongestMatch.scan_eq, fun h => h ▸ longestMatch_scan cs⟩

/-! ## Digits in the place of the arrows -/

/-- Put a character in the place of every occurrence of a sign, from the left. -/
def replaceAll (c : Connective) (stand : Char) : List Char → List Char
  | [] => []
  | x :: cs =>
    if c.chars <+: x :: cs then
      stand :: replaceAll c stand (cs.drop (c.chars.length - 1))
    else
      x :: replaceAll c stand cs
termination_by cs => cs.length

/-- A lexeme as one character, with a digit for each arrow. -/
def digit : Lexeme → Char
  | char c => c
  | sign .iff => '1'
  | sign _ => '0'

/-- The lexeme that a character is, or that a digit stands for. -/
def ofDigit : Char → Lexeme
  | '0' => sign .imply
  | '1' => sign .iff
  | c => char c

theorem replaceAll_iff (cs : List Char) :
    replaceAll .iff '1' cs = (joinDoubleArrows (cs.map char)).map digit := by
  fun_induction replaceAll Connective.iff '1' cs with
  | case1 => rfl
  | case2 x cs hpre ih =>
      obtain ⟨tail, htail⟩ := hpre
      obtain ⟨rfl, rfl⟩ := List.cons.inj htail
      exact congrArg ('1' :: ·) ih
  | case3 x cs hpre ih =>
      rw [joinDoubleArrows_cons, List.map_cons, ih]
      · rfl
      · intro rest hx hcs
        subst hx hcs
        exact hpre ⟨rest, rfl⟩

/-- No digit is taken for a part of an arrow. -/
theorem replaceAll_imply (xs : List Lexeme) :
    replaceAll .imply '0' (xs.map digit) = (joinArrows xs).map digit := by
  have hchar : ∀ {x : Lexeme} {c : Char}, c.isDigit = false → c = x.digit → x = char c := by
    intro x c hc hx
    match x with
    | char _ => rw [hx]; rfl
    | sign .and | sign .or | sign .imply | sign .iff =>
        rw [hx] at hc
        exact absurd hc (by decide)
  fun_induction joinArrows xs with
  | case1 rest ih =>
      have hpre : Connective.imply.chars <+: '-' :: '>' :: rest.map digit := ⟨_, rfl⟩
      show replaceAll .imply '0' ('-' :: '>' :: rest.map digit) = _
      rw [replaceAll, if_pos hpre]
      exact congrArg ('0' :: ·) ih
  | case2 x rest hno ih =>
      have hpre : ¬ Connective.imply.chars <+: x.digit :: rest.map digit := by
        rintro ⟨tail, htail⟩
        obtain ⟨hx, hrest⟩ := List.cons.inj htail
        obtain ⟨y, rest', rfl, hy, _⟩ := List.map_eq_cons_iff.1 hrest.symm
        exact hno rest' (hchar (by decide) hx) (by rw [hchar (by decide) hy.symm])
      rw [List.map_cons, replaceAll, if_neg hpre, ih]
      rfl
  | case3 => rw [List.map_nil, replaceAll]

theorem isBlank_digit (x : Lexeme) : Text.isBlank x.digit = x.isBlank := by
  match x with
  | char _ | sign .and | sign .or | sign .imply | sign .iff => rfl

theorem ofDigit_digit {x : Lexeme} (harrow : ∀ c, x = sign c → c = .imply ∨ c = .iff)
    (hdigit : ∀ c, x = char c → c.isDigit = false) : ofDigit x.digit = x := by
  match x with
  | sign c =>
      obtain rfl | rfl := harrow c rfl
      · rfl
      · rfl
  | char c =>
      have hc : c.isDigit = false := hdigit c rfl
      show ofDigit c = char c
      unfold ofDigit
      split
      · exact absurd hc (by decide)
      · exact absurd hc (by decide)
      · rfl

theorem mem_scan {cs : List Char} {x : Lexeme} (h : x ∈ scan cs) :
    (∃ c ∈ cs, x = char c) ∨ x = sign .imply ∨ x = sign .iff := by
  fun_induction scan cs with
  | case1 rest ih =>
      rcases List.mem_cons.1 h with rfl | h
      · exact .inr (.inr rfl)
      · obtain ⟨c, hc, hx⟩ | hsign := ih h
        · have hc := List.mem_cons_of_mem '-' (List.mem_cons_of_mem '>' hc)
          exact .inl ⟨c, List.mem_cons_of_mem '<' hc, hx⟩
        · exact .inr hsign
  | case2 rest ih =>
      rcases List.mem_cons.1 h with rfl | h
      · exact .inr (.inl rfl)
      · obtain ⟨c, hc, hx⟩ | hsign := ih h
        · exact .inl ⟨c, List.mem_cons_of_mem '-' (List.mem_cons_of_mem '>' hc), hx⟩
        · exact .inr hsign
  | case3 c rest hdouble hsingle hb ih =>
      obtain ⟨d, hd, hx⟩ | hsign := ih h
      · exact .inl ⟨d, List.mem_cons_of_mem c hd, hx⟩
      · exact .inr hsign
  | case4 c rest hdouble hsingle hb ih =>
      rcases List.mem_cons.1 h with rfl | h
      · exact .inl ⟨c, List.mem_cons_self, rfl⟩
      · obtain ⟨d, hd, hx⟩ | hsign := ih h
        · exact .inl ⟨d, List.mem_cons_of_mem c hd, hx⟩
        · exact .inr hsign
  | case5 => cases h

/-- A text as it stands after its arrows are replaced by digits and its blanks
are dropped. -/
def compact (cs : List Char) : List Char :=
  (replaceAll .imply '0' (replaceAll .iff '1' cs)).filter (!Text.isBlank ·)

theorem compact_eq (cs : List Char) : compact cs = (ofChars cs).map digit := by
  have hblank : (fun c => !Text.isBlank c) ∘ digit = fun x : Lexeme => !x.isBlank :=
    funext fun x => congrArg (!·) (isBlank_digit x)
  rw [compact, replaceAll_iff, replaceAll_imply, List.filter_map, hblank, ofChars]

theorem map_ofDigit_compact {cs : List Char} (h : ∀ c ∈ cs, c.isDigit = false) :
    (compact cs).map ofDigit = scan cs := by
  rw [compact_eq, List.map_map, ofChars_eq_scan]
  refine (List.map_congr_left fun x hx => ?_).trans (List.map_id _)
  refine ofDigit_digit (fun c hc => ?_) (fun c hc => ?_)
  · subst hc
    rcases mem_scan hx with ⟨d, _, hd⟩ | hd | hd
    · cases hd
    · exact .inl (sign.inj hd)
    · exact .inr (sign.inj hd)
  · subst hc
    rcases mem_scan hx with ⟨d, hmem, hd⟩ | hd | hd
    · cases hd
      exact h c hmem
    · cases hd
    · cases hd

/-! ## Lexemes at fault -/

def IsLetter : Lexeme → Prop
  | char c => c.isUpper = true
  | sign _ => False

/-- The sign of a connective or of negation, or a parenthesis. -/
def IsSymbol : Lexeme → Prop
  | char c => c ∈ ['(', ')', '~', '&', '|']
  | sign _ => True

theorem token?_eq_none_iff {x : Lexeme} : x.token? = none ↔ ¬ x.IsLetter ∧ ¬ x.IsSymbol := by
  unfold token?
  split
  case h_6 c h₁ h₂ h₃ h₄ h₅ =>
    have hsymbol : ¬ (char c).IsSymbol := by
      simpa [IsSymbol] using ⟨h₁, h₂, h₃, h₄, h₅⟩
    split
    · next hc => exact iff_of_false nofun fun h => h.1 hc
    · next hc => exact iff_of_true rfl ⟨hc, hsymbol⟩
  case h_7 => exact iff_of_false nofun fun h => h.2 trivial
  all_goals exact iff_of_false nofun fun h => h.2 (by simp [IsSymbol])

/-- The token that a lexeme of a text is. -/
inductive Denotes : Lexeme → Token → Prop
  | letter {c : Char} (hc : c.isUpper = true) : Denotes (char c) (.atom ⟨c⟩)
  | opening : Denotes (char '(') .opening
  | closing : Denotes (char ')') .closing
  | not : Denotes (char '~') .not
  | and : Denotes (char '&') (.connective .and)
  | or : Denotes (char '|') (.connective .or)
  | arrow : Denotes (sign .imply) (.connective .imply)
  | doubleArrow : Denotes (sign .iff) (.connective .iff)

theorem token?_eq_some_iff {x : Lexeme} {t : Token} (hx : x.Possible) :
    x.token? = some t ↔ x.Denotes t := by
  refine ⟨fun h => ?_, fun h => ?_⟩
  · unfold token? at h
    split at h
    case h_6 c _ _ _ _ _ =>
      split at h
      · next hc =>
          cases h
          exact .letter hc
      · cases h
    case h_7 c =>
      cases h
      obtain rfl | rfl := hx
      · exact .arrow
      · exact .doubleArrow
    case h_1 => cases h; exact .opening
    case h_2 => cases h; exact .closing
    case h_3 => cases h; exact .not
    case h_4 => cases h; exact .and
    case h_5 => cases h; exact .or
  · cases h with
    | letter hc => exact Token.token?_char hc
    | opening | closing | not | and | or | arrow | doubleArrow => rfl

theorem map_token?_eq_iff {xs : List Lexeme} {ts : List Token} (h : ∀ x ∈ xs, x.Possible) :
    xs.map token? = ts.map some ↔ List.Forall₂ Denotes xs ts := by
  induction xs generalizing ts with
  | nil => cases ts <;> simp
  | cons x xs ih =>
      obtain ⟨hx, hxs⟩ := List.forall_mem_cons.1 h
      cases ts with
      | nil => simp
      | cons t ts => simp [token?_eq_some_iff hx, ih hxs]

theorem isAtom_iff_isLetter {x : Lexeme} {t : Token} (h : x.token? = some t) :
    t.isAtom = true ↔ x.IsLetter := by
  unfold token? at h
  split at h
  case h_6 c _ _ _ _ _ =>
    split at h
    · next hc =>
        cases h
        exact iff_of_true rfl hc
    · cases h
  case h_7 =>
    cases h
    exact iff_of_false nofun id
  all_goals
    cases h
    exact iff_of_false nofun (by simp [IsLetter])

/-- The lexeme at the index is at fault: it is nothing that a formula is written
with, or it is a letter right after a letter, and then the error points at the
first of the two. -/
inductive Offends (xs : List Lexeme) : Nat → ParseError → Prop
  | unknown {i : Nat} {x : Lexeme} (hx : xs[i]? = some x) (hletter : ¬ x.IsLetter)
      (hsymbol : ¬ x.IsSymbol) : Offends xs i (.disallowedCharacter i)
  | adjacent {i : Nat} {x y : Lexeme} (hx : xs[i]? = some x) (hfirst : x.IsLetter)
      (hy : xs[i + 1]? = some y) (hsecond : y.IsLetter) : Offends xs (i + 1) (.atomTooLong i)

theorem Offends.lt_length {xs : List Lexeme} {i : Nat} {e : ParseError} (h : Offends xs i e) :
    i < xs.length := by
  cases h with
  | unknown hx _ _ => exact (List.getElem?_eq_some_iff.1 hx).1
  | adjacent _ _ hy _ => exact (List.getElem?_eq_some_iff.1 hy).1

theorem Offends.unique {xs : List Lexeme} {i : Nat} {e e' : ParseError} (h : Offends xs i e)
    (h' : Offends xs i e') : e = e' := by
  cases h with
  | unknown hx hletter _ =>
      cases h' with
      | unknown _ _ _ => rfl
      | adjacent _ _ hy hsecond =>
          rw [hx] at hy
          cases hy
          exact absurd hsecond hletter
  | adjacent _ _ hy hsecond =>
      cases h' with
      | unknown hx hletter _ =>
          rw [hx] at hy
          cases hy
          exact absurd hsecond hletter
      | adjacent _ _ _ _ => rfl

/-- The lexeme at the index is at fault, and none before it is. -/
structure FirstOffence (xs : List Lexeme) (i : Nat) (e : ParseError) : Prop where
  offends : Offends xs i e
  first : ∀ j e', Offends xs j e' → i ≤ j

theorem FirstOffence.unique {xs : List Lexeme} {i j : Nat} {e e' : ParseError}
    (h : FirstOffence xs i e) (h' : FirstOffence xs j e') : e = e' := by
  have hij : i = j := Nat.le_antisymm (h.first j e' h'.offends) (h'.first i e h.offends)
  subst hij
  exact h.offends.unique h'.offends

end Lexeme

namespace Token

open Lexeme

variable {before after : List Lexeme} {x : Lexeme} {afterAtom : Bool}

/-- What the pass finds about the next lexeme, by the flag for the one before. -/
theorem offends_length_iff {e : ParseError}
    (hflag : afterAtom = true ↔ ∃ y ∈ before.getLast?, y.IsLetter) :
    Offends (before ++ x :: after) before.length e ↔
      (x.token? = none ∧ e = .disallowedCharacter before.length) ∨
      (afterAtom = true ∧ x.IsLetter ∧ e = .atomTooLong (before.length - 1)) := by
  have hx : (before ++ x :: after)[before.length]? = some x := by simp
  constructor
  · intro h
    generalize hn : before.length = n at h hx
    cases h with
    | unknown hx' hletter hsymbol =>
        rw [hx] at hx'
        cases hx'
        exact .inl ⟨token?_eq_none_iff.2 ⟨hletter, hsymbol⟩, rfl⟩
    | @adjacent i y x' hy hfirst hx' hsecond =>
        rw [hx] at hx'
        cases hx'
        have hlast : before.getLast? = some y := by
          rw [List.getLast?_eq_getElem?, hn, Nat.add_sub_cancel, ← hy,
            List.getElem?_append_left (by omega)]
        exact .inr ⟨hflag.2 ⟨y, hlast, hfirst⟩, hsecond, rfl⟩
  · rintro (⟨hnone, rfl⟩ | ⟨hafter, hletter, rfl⟩)
    · obtain ⟨hletter, hsymbol⟩ := token?_eq_none_iff.1 hnone
      exact .unknown hx hletter hsymbol
    · obtain ⟨y, hy, hfirst⟩ := hflag.1 hafter
      obtain ⟨init, rfl⟩ := List.getLast?_eq_some_iff.1 hy
      rw [List.length_append, List.length_singleton] at hx ⊢
      exact .adjacent (by simp) hfirst hx hletter

/-- One lexeme that is not at fault moves the border on. -/
theorem le_of_offends_append_singleton {t : Token} {j : Nat} {e : ParseError}
    (hflag : afterAtom = true ↔ ∃ y ∈ before.getLast?, y.IsLetter)
    (hpast : ∀ j e, Offends (before ++ x :: after) j e → before.length ≤ j)
    (ht : x.token? = some t) (hapart : ¬ (afterAtom && t.isAtom) = true)
    (h : Offends (before ++ [x] ++ after) j e) : (before ++ [x]).length ≤ j := by
  rw [List.append_assoc, List.singleton_append] at h
  have hne : j ≠ before.length := by
    rintro rfl
    rcases (offends_length_iff hflag).1 h with ⟨hnone, _⟩ | ⟨hafter, hletter, _⟩
    · rw [ht] at hnone
      cases hnone
    · exact hapart (Bool.and_eq_true_iff.2 ⟨hafter, (isAtom_iff_isLetter ht).2 hletter⟩)
  have hle := hpast j e h
  rw [List.length_append, List.length_singleton]
  omega

/-- The pass over the lexemes that come after some without a fault: either it
goes through and there is no fault, or it finds the first. -/
theorem ofLexemes_cases (hflag : afterAtom = true ↔ ∃ y ∈ before.getLast?, y.IsLetter)
    (hpast : ∀ j e, Offends (before ++ after) j e → before.length ≤ j) :
    (∃ ts, ofLexemes before.length afterAtom after = .ok ts ∧
      ∀ j e, ¬ Offends (before ++ after) j e) ∨
    ∃ i e, ofLexemes before.length afterAtom after = .error e ∧
      FirstOffence (before ++ after) i e := by
  induction after generalizing before afterAtom with
  | nil =>
      refine .inl ⟨[], rfl, fun j e h => ?_⟩
      have hle := hpast j e h
      have hlt := h.lt_length
      rw [List.append_nil] at hlt
      exact absurd hlt (Nat.not_lt_of_le hle)
  | cons x after ih =>
      rw [ofLexemes.eq_2]
      cases ht : x.token? with
      | none =>
          have hfault : Offends (before ++ x :: after) before.length _ :=
            (offends_length_iff hflag).2 (.inl ⟨ht, rfl⟩)
          exact .inr ⟨_, _, rfl, hfault, hpast⟩
      | some t =>
          by_cases hnext : (afterAtom && t.isAtom) = true
          · obtain ⟨hafter, hatom⟩ := Bool.and_eq_true_iff.1 hnext
            have hfault : Offends (before ++ x :: after) before.length _ :=
              (offends_length_iff hflag).2 (.inr ⟨hafter, (isAtom_iff_isLetter ht).1 hatom, rfl⟩)
            exact .inr ⟨_, _, if_pos hnext, hfault, hpast⟩
          · have hflag' : t.isAtom = true ↔ ∃ y ∈ (before ++ [x]).getLast?, y.IsLetter := by
              rw [isAtom_iff_isLetter ht]
              simp
            have hrest := ih hflag' fun _ _ => le_of_offends_append_singleton hflag hpast ht hnext
            rw [List.length_append, List.length_singleton, List.append_assoc,
              List.singleton_append] at hrest
            simp only [if_neg hnext]
            rcases hrest with ⟨ts, hok, hno⟩ | ⟨i, e, herror, hfirst⟩
            · exact .inl ⟨t :: ts, by rw [hok]; rfl, hno⟩
            · exact .inr ⟨i, e, by rw [herror]; rfl, hfirst⟩

/-- From the start there is nothing behind. -/
theorem ofLexemes_zero_cases (xs : List Lexeme) :
    (∃ ts, ofLexemes 0 false xs = .ok ts ∧ ∀ j e, ¬ Offends xs j e) ∨
    ∃ i e, ofLexemes 0 false xs = .error e ∧ FirstOffence xs i e :=
  @ofLexemes_cases [] xs false (by simp) fun j _ _ => Nat.zero_le j

theorem ofLexemes_eq_error_iff {xs : List Lexeme} {e : ParseError} :
    ofLexemes 0 false xs = .error e ↔ ∃ i, FirstOffence xs i e := by
  rcases ofLexemes_zero_cases xs with ⟨ts, hok, hno⟩ | ⟨i, e', herror, hfirst⟩
  · rw [hok]
    exact iff_of_false nofun fun ⟨i, h⟩ => hno i e h.offends
  · rw [herror]
    refine ⟨fun h => ?_, fun ⟨j, h⟩ => by rw [hfirst.unique h]⟩
    cases h
    exact ⟨i, hfirst⟩

theorem ofLexemes_eq_ok_iff_map {xs : List Lexeme} {ts : List Token} :
    ofLexemes 0 false xs = .ok ts ↔
      (∀ i e, ¬ Offends xs i e) ∧ xs.map Lexeme.token? = ts.map some := by
  rcases ofLexemes_zero_cases xs with ⟨us, hok, hno⟩ | ⟨i, e, herror, hfirst⟩
  · obtain ⟨hmap, _⟩ := ofLexemes_eq_ok_iff.1 hok
    rw [hok, hmap, Except.ok.injEq, List.map_inj_right fun _ _ => Option.some.inj]
    exact (and_iff_right hno).symm
  · rw [herror]
    exact iff_of_false nofun fun h => h.1 i e hfirst.offends

/-- The tokens of a text are those of the lexemes that the longest match finds.
A text of blanks has none, and in any other the first digit is the fault, at its
place among the characters of the trimmed text. Without digits the trimmed text
in capitals is scanned once from the left; the error is the one of the first
lexeme at fault, with its index among the lexemes, and without a fault there are
as many tokens as lexemes, each that of its lexeme: the atom of a letter, the
negation, a parenthesis, or the connective of a sign. The scan finds what is left
if first the long arrows, then the short ones are replaced by digits and at last
the blanks are dropped. -/
theorem tokens_by_longest_match :
    (∀ cs, Text.trim cs = [] → ofChars cs = .error .emptyInput) ∧
    (∀ cs, (∃ c ∈ Text.trim cs, c.isDigit = true) →
      ofChars cs = .error (.disallowedCharacter ((Text.trim cs).findIdx Char.isDigit))) ∧
    (∀ cs xs, Text.trim cs ≠ [] → (∀ c ∈ Text.trim cs, c.isDigit = false) →
      LongestMatch ((Text.trim cs).map Char.toUpper) xs →
      (∀ e, ofChars cs = .error e ↔ ∃ i, FirstOffence xs i e) ∧
      (∀ ts, ofChars cs = .ok ts ↔
        (∀ i e, ¬ Offends xs i e) ∧ ts.length = xs.length ∧
          xs.map Lexeme.token? = ts.map some) ∧
      (∀ ts, ofChars cs = .ok ts ↔ (∀ i e, ¬ Offends xs i e) ∧ List.Forall₂ Denotes xs ts)) ∧
    (∀ cs xs, LongestMatch cs xs ↔ scan cs = xs) ∧
    ∀ cs, (∀ c ∈ cs, c.isDigit = false) → (compact cs).map ofDigit = scan cs := by
  refine ⟨fun cs hcs => ?_, fun cs hdigit => ?_, fun cs xs hne hdigit hxs => ?_,
    fun cs xs => longestMatch_iff, fun cs => map_ofDigit_compact⟩
  · unfold ofChars
    simp only [hcs, List.map_nil, if_true]
  · exact ofChars_eq_of_findIdx?_eq_some (List.findIdx?_eq_some_of_exists hdigit)
  · rw [ofChars_eq_ofLexemes hne hdigit, hxs.scan_eq]
    refine ⟨fun e => ofLexemes_eq_error_iff, fun ts => ofLexemes_eq_ok_iff_map.trans ?_,
      fun ts => ofLexemes_eq_ok_iff_map.trans ?_⟩
    · refine and_congr_right fun _ => (and_iff_right_of_imp fun hmap => ?_).symm
      rw [← List.length_map (f := some), ← hmap, List.length_map]
    · rw [map_token?_eq_iff hxs.possible]

/-- A digit behind two letters in a row is the fault nevertheless. Of the dashes
in `a<-->B` the second belongs to an arrow, so the `<` and the first are lexemes
by themselves, and the `<` is the fault. Without a fault is `(~a&B|t)->F <-> c`. -/
theorem tokens_by_longest_match_dashes :
    ofChars " ".toList = .error .emptyInput ∧
      ofChars " ab1".toList = .error (.disallowedCharacter 2) ∧
      LongestMatch "A<-->B".toList
        [.char 'A', .char '<', .char '-', .sign .imply, .char 'B'] ∧
      (∃ i, FirstOffence [.char 'A', .char '<', .char '-', .sign .imply, .char 'B'] i
        (.disallowedCharacter 1)) ∧
      (ofChars "(~a&B|t)->F <-> c".toList =
          .ok [.opening, .not, .atom ⟨'A'⟩, .connective .and, .atom ⟨'B'⟩, .connective .or,
            .atom ⟨'T'⟩, .closing, .connective .imply, .atom ⟨'F'⟩, .connective .iff,
            .atom ⟨'C'⟩] ∧
        List.Forall₂ Denotes
          [.char '(', .char '~', .char 'A', .char '&', .char 'B', .char '|', .char 'T', .char ')',
            .sign .imply, .char 'F', .sign .iff, .char 'C']
          [.opening, .not, .atom ⟨'A'⟩, .connective .and, .atom ⟨'B'⟩, .connective .or,
            .atom ⟨'T'⟩, .closing, .connective .imply, .atom ⟨'F'⟩, .connective .iff,
            .atom ⟨'C'⟩]) ∧
      (compact "A<-->B".toList).map ofDigit =
        [.char 'A', .char '<', .char '-', .sign .imply, .char 'B'] := by
  obtain ⟨hempty, hdigit, hplain, hlongest, hcompact⟩ := tokens_by_longest_match
  have hscan : LongestMatch "A<-->B".toList
      [.char 'A', .char '<', .char '-', .sign .imply, .char 'B'] := (hlongest _ _).2 rfl
  have htrim : Text.trim "a<-->B".toList = ['a', '<', '-', '-', '>', 'B'] := rfl
  have htokens : ofChars "(~a&B|t)->F <-> c".toList = .ok [.opening, .not, .atom ⟨'A'⟩,
      .connective .and, .atom ⟨'B'⟩, .connective .or, .atom ⟨'T'⟩, .closing, .connective .imply,
      .atom ⟨'F'⟩, .connective .iff, .atom ⟨'C'⟩] := rfl
  have hdigitless : ∀ c ∈ Text.trim "(~a&B|t)->F <-> c".toList, c.isDigit = false := by
    have hall : (Text.trim "(~a&B|t)->F <-> c".toList).all (!·.isDigit) = true := rfl
    exact fun c hc => by simpa using List.all_eq_true.1 hall c hc
  refine ⟨hempty _ rfl, hdigit " ab1".toList ⟨'1', by decide, rfl⟩, hscan, ?_, ⟨htokens, ?_⟩, ?_⟩
  · exact ((hplain "a<-->B".toList _ (by decide) (by rw [htrim]; simp) hscan).1 _).1 rfl
  · have hlexemes := (hlongest "(~A&B|T)->F <-> C".toList _).2 rfl
    exact (((hplain _ _ (by decide) hdigitless hlexemes).2.2 _).1 htokens).2
  · exact (hcompact "A<-->B".toList (by simp)).trans ((hlongest _ _).1 hscan)

end Token

end Sentential
