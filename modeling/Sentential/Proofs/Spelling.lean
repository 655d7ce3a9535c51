import Sentential.Formula.Parser
import Sentential.Proofs.Lexing

/-!
# Blanks and the case of letters do not matter

A formula may be spelled with blanks where the writer likes them, and in letters
of either case. Neither can be seen in what is read, nor in the error if nothing
is: the errors count lexemes, and blanks are none. The one place where a blank
does matter is the inside of an arrow, which it breaks.

The argument follows the scan along a text in two parts. Unless an arrow runs
across the border, the scan of the whole is the scan of the one part and then of
the other (`scan_append`). A blank belongs to no arrow, so there is always such
a border on either side of it, and between its borders it contributes nothing.
Trimming is a case of this, and the only trace that it leaves is the error on a
text of blanks alone. A digit is reported at its place among the characters, and
not among the lexemes; texts with digits are therefore left out.
-/

namespace Sentential

/-! ## Trimming -/

namespace Text

theorem isBlank_toUpper (c : Char) : isBlank c.toUpper = isBlank c := by
  refine toUpper_congr (fun a ha => ha.isBlank) (fun c hc => ?_) c
  have hbounds := bounds_of_isLower hc
  exact isBlank_eq_false (by omega) (by omega)

theorem trim_map_toUpper (cs : List Char) :
    trim (cs.map Char.toUpper) = (trim cs).map Char.toUpper := by
  have hblank : isBlank ∘ Char.toUpper = isBlank := funext isBlank_toUpper
  unfold trim trimEnd trimStart
  rw [List.dropWhile_map, ← List.map_reverse, List.dropWhile_map, hblank, List.map_reverse]

/-- Blanks at the ends are not seen through trimming. -/
theorem trim_append_blanks {before after : List Char} (cs : List Char)
    (hbefore : ∀ c ∈ before, isBlank c = true) (hafter : ∀ c ∈ after, isBlank c = true) :
    trim (before ++ (cs ++ after)) = trim cs := by
  have hstart : trimStart (before ++ (cs ++ after)) = trimStart (cs ++ after) :=
    List.dropWhile_append_of_pos hbefore
  have hend : trimEnd (trimStart cs ++ after) = trimEnd (trimStart cs) := by
    unfold trimEnd
    rw [List.reverse_append, List.dropWhile_append_of_pos]
    intro c hc
    exact hafter c (List.mem_reverse.1 hc)
  unfold trim
  rw [hstart]
  by_cases hcs : trimStart cs = []
  · have hnil : trimStart (cs ++ after) = [] := by
      have hblank : ∀ c ∈ cs, isBlank c = true := List.dropWhile_eq_nil_iff.1 hcs
      exact List.dropWhile_eq_nil_iff.2 (List.forall_mem_append.2 ⟨hblank, hafter⟩)
    rw [hnil, hcs]
  · have happend : trimStart (cs ++ after) = trimStart cs ++ after := by
      have hempty : ¬ (cs.dropWhile isBlank).isEmpty = true := mt List.isEmpty_iff.1 hcs
      unfold trimStart
      rw [List.dropWhile_append, if_neg hempty]
    rw [happend, hend]

/-- Blanks are what trimming takes away. -/
theorem exists_eq_append_trim (cs : List Char) :
    ∃ before after, cs = before ++ (trim cs ++ after) ∧
      (∀ c ∈ before, isBlank c = true) ∧ ∀ c ∈ after, isBlank c = true := by
  refine ⟨cs.takeWhile isBlank, ((trimStart cs).reverse.takeWhile isBlank).reverse, ?_,
    fun c hc => List.mem_takeWhile_imp hc,
    fun c hc => List.mem_takeWhile_imp (List.mem_reverse.1 hc)⟩
  have hend : trim cs ++ ((trimStart cs).reverse.takeWhile isBlank).reverse = trimStart cs := by
    rw [trim, trimEnd, ← List.reverse_append, List.takeWhile_append_dropWhile,
      List.reverse_reverse]
  rw [hend]
  exact List.takeWhile_append_dropWhile.symm

theorem trim_eq_nil_iff {cs : List Char} : trim cs = [] ↔ ∀ c ∈ cs, isBlank c = true := by
  constructor
  · intro h
    obtain ⟨before, after, hcs, hbefore, hafter⟩ := exists_eq_append_trim cs
    rw [h, List.nil_append] at hcs
    rw [hcs]
    exact List.forall_mem_append.2 ⟨hbefore, hafter⟩
  · intro h
    have hstart : trimStart cs = [] := List.dropWhile_eq_nil_iff.2 h
    rw [trim, hstart]
    rfl

end Text

/-! ## A scan in parts -/

/-- The border between two texts runs through a sign: some characters of it end
the one and the others begin the other. -/
def Connective.Cut (u v : List Char) : Prop :=
  ∃ c : Connective, ∃ k < c.chars.length, 0 < k ∧ c.chars.take k <:+ u ∧ c.chars.drop k <+: v

namespace Connective

instance (u v : List Char) : Decidable (Cut u v) :=
  decidable_of_iff (∃ c ∈ [and, or, imply, iff], ∃ k < c.chars.length,
      0 < k ∧ c.chars.take k <:+ u ∧ c.chars.drop k <+: v)
    ⟨fun ⟨c, _, h⟩ => ⟨c, h⟩, fun ⟨c, h⟩ => ⟨c, by cases c <;> decide, h⟩⟩

theorem plain_of_mem_chars {c : Connective} {x : Char} (h : x ∈ c.chars) :
    x.isUpper = false ∧ Text.isBlank x = false := by
  have hall : (c.chars.all fun x => !x.isUpper && !Text.isBlank x) = true := by
    cases c <;> rfl
  simpa using List.all_eq_true.1 hall x h

theorem Cut.of_suffix {u u' v : List Char} (h : Cut u v) (hu : u <:+ u') : Cut u' v := by
  obtain ⟨c, k, hk, hpos, hleft, hright⟩ := h
  exact ⟨c, k, hk, hpos, hleft.trans hu, hright⟩

/-- A sign that starts a text and does not end before the border is cut there. -/
theorem Cut.of_prefix {c : Connective} {u v : List Char} (hu : u ≠ [])
    (hwhole : c.chars <+: u ++ v) (hpart : ¬ c.chars <+: u) : Cut u v := by
  rcases List.prefix_or_prefix_of_prefix hwhole (List.prefix_append u v) with h | ⟨q, hq⟩
  · exact absurd h hpart
  · have hne : q ≠ [] := by
      rintro rfl
      rw [List.append_nil] at hq
      exact hpart (hq ▸ List.prefix_rfl)
    rw [← hq] at hwhole
    refine ⟨c, u.length, ?_, List.length_pos_of_ne_nil hu, ?_, ?_⟩
    · rw [← hq, List.length_append]
      exact Nat.lt_add_of_pos_right (List.length_pos_of_ne_nil hne)
    · exact ⟨[], by rw [← hq, List.take_left, List.nil_append]⟩
    · rw [← hq, List.drop_left]
      exact (List.prefix_append_right_inj u).1 hwhole

theorem not_cut_nil (u : List Char) : ¬ Cut u [] := by
  rintro ⟨c, k, hk, _, _, hright⟩
  exact absurd (List.drop_eq_nil_iff.1 (List.prefix_nil.1 hright)) (Nat.not_le_of_lt hk)

/-- No sign has a blank in it. -/
theorem not_cut_of_isBlank {u v : List Char} {b : Char} (hb : Text.isBlank b = true) :
    ¬ Cut u (b :: v) := by
  rintro ⟨c, k, hk, _, _, hright⟩
  have hne : c.chars.drop k ≠ [] := mt List.drop_eq_nil_iff.1 (Nat.not_le_of_lt hk)
  obtain ⟨x, q, hxq⟩ := List.exists_cons_of_ne_nil hne
  have hmem : x ∈ c.chars := List.mem_of_mem_drop (hxq ▸ List.mem_cons_self)
  rw [hxq] at hright
  obtain ⟨rfl, _⟩ := List.cons_prefix_cons.1 hright
  rw [(plain_of_mem_chars hmem).2] at hb
  cases hb

/-- No sign has a letter in it, so the change to capitals makes none. -/
theorem eq_of_map_toUpper_eq {c : Connective} {cs part : List Char}
    (h : cs.map Char.toUpper = part) (hpart : ∀ x ∈ part, x ∈ c.chars) : cs = part := by
  have hself : ∀ x ∈ cs, x.toUpper = x := by
    intro x hx
    have hmem : x.toUpper ∈ c.chars := hpart _ (h ▸ List.mem_map_of_mem hx)
    cases hlower : x.isLower with
    | false => exact Char.toUpper_eq_of_not_isLower (Bool.eq_false_iff.1 hlower)
    | true =>
        have hletter : x.toUpper.isUpper = true := Text.isLetter_toUpper hlower
        rw [(plain_of_mem_chars hmem).1] at hletter
        cases hletter
  rw [← h, List.map_congr_left hself, List.map_id']

theorem Cut.of_map_toUpper {u v : List Char}
    (h : Cut (u.map Char.toUpper) (v.map Char.toUpper)) : Cut u v := by
  obtain ⟨c, k, hk, hpos, hleft, hright⟩ := h
  obtain ⟨p, hpu, hp⟩ := List.suffix_map_iff.1 hleft
  obtain ⟨q, hqv, hq⟩ := List.prefix_map_iff.1 hright
  rw [eq_of_map_toUpper_eq hp.symm fun _ => List.mem_of_mem_take] at hpu
  rw [eq_of_map_toUpper_eq hq.symm fun _ => List.mem_of_mem_drop] at hqv
  exact ⟨c, k, hk, hpos, hpu, hqv⟩

end Connective

namespace Lexeme

open Connective

theorem scan_blanks_append {w : List Char} (hw : ∀ c ∈ w, Text.isBlank c = true)
    (v : List Char) : scan (w ++ v) = scan v := by
  induction w with
  | nil => rfl
  | cons b w ih =>
      obtain ⟨hb, hw⟩ := List.forall_mem_cons.1 hw
      rw [List.cons_append, scan_blank hb, ih hw]

/-- Two texts without a sign across their border are scanned one after the
other. -/
theorem scan_append {u v : List Char} (h : ¬ Cut u v) : scan (u ++ v) = scan u ++ scan v := by
  fun_induction scan u with
  | case1 rest ih =>
      have hrest : rest <:+ '<' :: '-' :: '>' :: rest := List.suffix_append ['<', '-', '>'] rest
      show sign .iff :: scan (rest ++ v) = _
      rw [ih fun hcut => h (hcut.of_suffix hrest)]
      rfl
  | case2 rest ih =>
      have hrest : rest <:+ '-' :: '>' :: rest := List.suffix_append ['-', '>'] rest
      show sign .imply :: scan (rest ++ v) = _
      rw [ih fun hcut => h (hcut.of_suffix hrest)]
      rfl
  | case3 c rest hdouble hsingle hb ih =>
      rw [List.cons_append, scan_blank hb]
      exact ih fun hcut => h (hcut.of_suffix (List.suffix_cons c rest))
  | case4 c rest hdouble hsingle hb ih =>
      rw [List.cons_append, scan.eq_3, if_neg hb, ih fun hcut =>
        h (hcut.of_suffix (List.suffix_cons c rest))]
      · rfl
      -- An arrow at the front would be in the left text already or cut.
      · rintro tail rfl htail
        refine h (Cut.of_prefix (c := .iff) (List.cons_ne_nil _ _) ⟨tail, ?_⟩ ?_)
        · rw [List.cons_append, htail]
          rfl
        · rintro ⟨t, ht⟩
          exact hdouble t rfl (List.cons.inj ht).2.symm
      · rintro tail rfl htail
        refine h (Cut.of_prefix (c := .imply) (List.cons_ne_nil _ _) ⟨tail, ?_⟩ ?_)
        · rw [List.cons_append, htail]
          rfl
        · rintro ⟨t, ht⟩
          exact hsingle t rfl (List.cons.inj ht).2.symm
  | case5 => rfl

/-- Blanks that break no sign add nothing to a scan. -/
theorem scan_insert_blanks {u w v : List Char} (hw : ∀ c ∈ w, Text.isBlank c = true)
    (h : ¬ Cut u v) : scan (u ++ (w ++ v)) = scan (u ++ v) := by
  cases w with
  | nil => rfl
  | cons b w =>
      have hb : Text.isBlank b = true := hw b List.mem_cons_self
      rw [scan_append h, List.cons_append, scan_append (not_cut_of_isBlank hb), ← List.cons_append,
        scan_blanks_append hw]

end Lexeme

/-! ## Texts that are read alike -/

namespace Text

/-- The same character, or the same letter in the other case. -/
def CaseVariant (c d : Char) : Prop := c = d ∨ c.toUpper = d ∨ d.toUpper = c

instance (c d : Char) : Decidable (CaseVariant c d) :=
  inferInstanceAs (Decidable (c = d ∨ c.toUpper = d ∨ d.toUpper = c))

theorem CaseVariant.toUpper_eq {c d : Char} (h : CaseVariant c d) : c.toUpper = d.toUpper := by
  rcases h with rfl | rfl | rfl
  · rfl
  · exact (Char.toUpper_toUpper_eq_toUpper c).symm
  · exact Char.toUpper_toUpper_eq_toUpper d

theorem isBlank_map_toUpper {cs : List Char} (h : ∀ c ∈ cs, isBlank c = true) :
    ∀ c ∈ cs.map Char.toUpper, isBlank c = true := by
  rw [List.forall_mem_map]
  exact fun c hc => by rw [isBlank_toUpper, h c hc]

theorem isDigit_of_isBlank {c : Char} (h : isBlank c = true) : c.isDigit = false := by
  rw [Bool.eq_false_iff]
  intro hdigit
  have hbounds : '0'.val ≤ c.val ∧ c.val ≤ '9'.val := by simpa [Char.isDigit] using hdigit
  have hlow : 48 ≤ c.toNat := UInt32.le_iff_toNat_le.1 hbounds.1
  have hhigh : c.toNat ≤ 57 := UInt32.le_iff_toNat_le.1 hbounds.2
  rw [isBlank_eq_false (by omega) (by omega)] at h
  cases h

end Text

namespace Token

theorem ofChars_of_blank {cs : List Char} (h : ∀ c ∈ cs, Text.isBlank c = true) :
    ofChars cs = .error .emptyInput := by
  have htrim : (Text.trim cs).map Char.toUpper = [] := by
    rw [Text.trim_eq_nil_iff.2 h]
    rfl
  unfold ofChars
  simp only [if_pos htrim]

/-- A text without digits need not be trimmed before it is scanned, if anything
is left of it. -/
theorem ofChars_of_not_blank {cs : List Char} (hblank : ¬ ∀ c ∈ cs, Text.isBlank c = true)
    (hdigit : ∀ c ∈ cs, c.isDigit = false) :
    ofChars cs = ofLexemes 0 false (Lexeme.scan (cs.map Char.toUpper)) := by
  obtain ⟨before, after, hcs, hbefore, hafter⟩ := Text.exists_eq_append_trim cs
  have hscan : Lexeme.scan (cs.map Char.toUpper) =
      Lexeme.scan ((Text.trim cs).map Char.toUpper) := by
    have hend := Lexeme.scan_insert_blanks (u := (Text.trim cs).map Char.toUpper)
      (Text.isBlank_map_toUpper hafter) (Connective.not_cut_nil _)
    rw [List.append_nil, List.append_nil] at hend
    have hmap := congrArg (List.map Char.toUpper) hcs
    rw [List.map_append, List.map_append] at hmap
    rw [hmap, Lexeme.scan_blanks_append (Text.isBlank_map_toUpper hbefore), hend]
  have hmem : ∀ c ∈ Text.trim cs, c ∈ cs := by
    intro c hc
    rw [hcs]
    exact List.mem_append_right before (List.mem_append_left after hc)
  rw [hscan]
  exact ofChars_eq_ofLexemes (mt Text.trim_eq_nil_iff.1 hblank) fun c hc => hdigit c (hmem c hc)

theorem ofChars_insert_blanks {u w v : List Char} (hdigit : ∀ c ∈ u ++ v, c.isDigit = false)
    (hw : ∀ c ∈ w, Text.isBlank c = true) (h : ¬ Connective.Cut u v) :
    ofChars (u ++ (w ++ v)) = ofChars (u ++ v) := by
  have hforall : ∀ p : Char → Prop, (∀ c ∈ w, p c) →
      ((∀ c ∈ u ++ (w ++ v), p c) ↔ ∀ c ∈ u ++ v, p c) := by
    intro p hp
    simp only [List.forall_mem_append]
    exact ⟨fun hall => ⟨hall.1, hall.2.2⟩, fun hall => ⟨hall.1, hp, hall.2⟩⟩
  by_cases hblank : ∀ c ∈ u ++ v, Text.isBlank c = true
  · rw [ofChars_of_blank hblank, ofChars_of_blank ((hforall _ hw).2 hblank)]
  · have hwdigit : ∀ c ∈ w, c.isDigit = false := fun c hc => Text.isDigit_of_isBlank (hw c hc)
    rw [ofChars_of_not_blank hblank hdigit,
      ofChars_of_not_blank (mt (hforall _ hw).1 hblank) ((hforall _ hwdigit).2 hdigit)]
    simp only [List.map_append]
    have hcut : ¬ Connective.Cut (u.map Char.toUpper) (v.map Char.toUpper) :=
      mt Connective.Cut.of_map_toUpper h
    rw [Lexeme.scan_insert_blanks (Text.isBlank_map_toUpper hw) hcut]

theorem ofChars_congr {s t : List Char} (h : List.Forall₂ Text.CaseVariant s t) :
    ofChars s = ofChars t := by
  have hmap : s.map Char.toUpper = t.map Char.toUpper := by
    induction h with
    | nil => rfl
    | cons hc _ ih => rw [List.map_cons, List.map_cons, hc.toUpper_eq, ih]
  unfold ofChars
  simp only [← Text.trim_map_toUpper, hmap]

end Token

namespace Formula

/-- What is read from a text, or the error with its index if nothing is, stays
the same if blanks are put in anywhere but inside an arrow, as long as the text
has no digit, and if letters of it, whatever else it has, change their case. -/
theorem parse_ignores_spelling :
    (∀ u w v : String, (∀ c ∈ (u ++ v).toList, c.isDigit = false) →
      (∀ c ∈ w.toList, Text.isBlank c = true) → ¬ Connective.Cut u.toList v.toList →
      parse (u ++ w ++ v) = parse (u ++ v)) ∧
    ∀ s t : String, List.Forall₂ Text.CaseVariant s.toList t.toList → parse s = parse t := by
  constructor
  · intro u w v hdigit hw hcut
    rw [String.toList_append] at hdigit
    unfold parse
    simp only [String.toList_append, List.append_assoc]
    rw [Token.ofChars_insert_blanks hdigit hw hcut]
  · intro s t h
    unfold parse
    rw [Token.ofChars_congr h]

/-- A blank may part the second dash from the first in `A<-->b`, and the small
letter may be a capital: the `<` is refused all the same. -/
theorem parse_ignores_spelling_dashes :
    ¬ Connective.Cut "A<-".toList "->b".toList ∧
      parse "A<- ->b" = .error (.disallowedCharacter 1) ∧
      parse "A<-->B" = .error (.disallowedCharacter 1) := by
  have hcut : ¬ Connective.Cut "A<-".toList "->b".toList := by decide
  have hplain : parse "A<-->b" = .error (.disallowedCharacter 1) := rfl
  have hspace : Text.isBlank ' ' = true := rfl
  have hblank : parse ("A<-" ++ " " ++ "->b") = parse ("A<-" ++ "->b") :=
    parse_ignores_spelling.1 _ _ _ (by simp) (by simpa using hspace) hcut
  have hcase : parse "A<-->b" = parse "A<-->B" :=
    parse_ignores_spelling.2 _ _ (by decide)
  exact ⟨hcut, hblank.trans hplain, hcase.symm.trans hplain⟩

end Formula

end Sentential
