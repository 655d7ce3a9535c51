/-!
# Atoms

An atom is a character. The letters `A` to `Z` are the atoms of the
language; two of them, `T` and `F`, are the constants true and false and the
others are variables. The type admits every character, so that a formula can
be built first and checked afterwards (`Formula.WellFormed`).

Atoms are ordered by code point. That order decides how sets of atoms and
assignments are listed.
-/

namespace Sentential

/-- A variable or a constant, named by one character. -/
structure Atom where
  symbol : Char
deriving DecidableEq

/-- A name that no letter answers to. -/
structure InvalidName where
  name : String
deriving DecidableEq

def InvalidName.message (e : InvalidName) : String :=
  "'" ++ e.name ++ "' is not a valid atom name"

namespace Atom

/-- The constant true. -/
def verum : Atom := ⟨'T'⟩

/-- The constant false. -/
def falsum : Atom := ⟨'F'⟩

def IsConstant (a : Atom) : Prop := a = verum ∨ a = falsum

instance (a : Atom) : Decidable a.IsConstant :=
  inferInstanceAs (Decidable (a = verum ∨ a = falsum))

/-- The symbol is one of the letters `A` to `Z`. -/
def IsLetter (a : Atom) : Prop := a.symbol.isUpper = true

instance (a : Atom) : Decidable a.IsLetter :=
  inferInstanceAs (Decidable (a.symbol.isUpper = true))

/-- A name is one letter. -/
def ofName (name : String) : Except InvalidName Atom :=
  match name.toList with
  | [c] => if c.isUpper then .ok ⟨c⟩ else .error ⟨name⟩
  | _ => .error ⟨name⟩

def name (a : Atom) : String := String.singleton a.symbol

/-- A name is accepted exactly if it consists of the letter that it names. -/
theorem ofName_eq_ok_iff {name : String} {a : Atom} :
    ofName name = .ok a ↔ name.toList = [a.symbol] ∧ a.IsLetter := by
  unfold ofName IsLetter
  split
  · next c h =>
      rw [h]
      by_cases hc : c.isUpper = true
      · simp only [if_pos hc, Except.ok.injEq, List.cons.injEq, and_true]
        constructor
        · intro ha
          exact ha ▸ ⟨rfl, hc⟩
        · intro ha
          cases a with
          | mk x => rw [ha.1]
      · simp only [if_neg hc, reduceCtorEq, List.cons.injEq, and_true, false_iff]
        intro ha
        exact hc (ha.1 ▸ ha.2)
  · next h =>
      simp only [reduceCtorEq, false_iff]
      intro ha
      exact h _ ha.1

/-- Any other name is refused as it stands. -/
theorem ofName_eq_error {name : String} (h : ∀ a : Atom, a.IsLetter → name.toList ≠ [a.symbol]) :
    ofName name = .error ⟨name⟩ := by
  unfold ofName
  split
  · next c hc => exact if_neg fun hupper => h ⟨c⟩ hupper hc
  · rfl

instance : LT Atom := ⟨fun a b => a.symbol < b.symbol⟩

instance (a b : Atom) : Decidable (a < b) :=
  inferInstanceAs (Decidable (a.symbol < b.symbol))

instance : Ord Atom := ⟨compareOn symbol⟩

theorem lt_trans {a b c : Atom} (hab : a < b) (hbc : b < c) : a < c :=
  Char.lt_trans hab hbc

theorem lt_asymm {a b : Atom} (h : a < b) : ¬ b < a := Char.lt_asymm h

theorem lt_irrefl (a : Atom) : ¬ a < a := Char.lt_irrefl a.symbol

/-- Of two atoms one comes first, unless they are the same. -/
theorem lt_trichotomy (a b : Atom) : a < b ∨ a = b ∨ b < a := by
  cases a with
  | mk x =>
    cases b with
    | mk y =>
      by_cases hxy : x < y
      · exact .inl hxy
      · by_cases hyx : y < x
        · exact .inr (.inr hyx)
        · exact .inr (.inl (congrArg mk
            (Char.le_antisymm (Char.not_lt.1 hyx) (Char.not_lt.1 hxy))))

end Atom

end Sentential
