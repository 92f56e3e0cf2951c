/-
**Numbers as texts.**

The texts in which numbers are read and written: unsigned decimal numerals with an optional plus sign, read
by a loop that checks each digit and the bound as it goes, and bytes written as two hexadecimal digits each.

Main definitions:

* `NumberTexts.parseUnsigned`, `NumberTexts.ParseIntError` — reading a number below a bound;
* `NumberTexts.Numeral` — the texts of a number;
* `NumberTexts.hexText` — the text of a list of bytes.

Main results:

* `NumberTexts.parseUnsigned_eq_ok_iff` — **a text is read as a number exactly if it is one of its
  numerals** and the number is below the bound;
* `NumberTexts.hexText_injective` — the text determines the bytes.
-/

import Mathlib.Data.List.Basic
import Mathlib.Tactic.Common

set_option relaxedAutoImplicit false
set_option autoImplicit false

namespace NumberTexts

/-! ### Reading decimal numerals -/

inductive ParseIntError
  | empty
  | invalidDigit
  | posOverflow
  deriving DecidableEq

def ParseIntError.toString : ParseIntError → String
  | .empty => "cannot parse integer from empty string"
  | .invalidDigit => "invalid digit found in string"
  | .posOverflow => "number too large to fit in target type"

/-- The loop over the digits; `n` is the number read so far. -/
def parseDigits (bound : ℕ) : ℕ → List Char → Except ParseIntError ℕ
  | n, [] => .ok n
  | n, c :: cs =>
    if c.isDigit then
      if 10 * n + (c.toNat - '0'.toNat) < bound then
        parseDigits bound (10 * n + (c.toNat - '0'.toNat)) cs
      else .error .posOverflow
    else .error .invalidDigit

/-- A number below `bound`, with an optional plus sign. -/
def parseUnsigned (bound : ℕ) : List Char → Except ParseIntError ℕ
  | [] => .error .empty
  | ['+'] => .error .invalidDigit
  | ['-'] => .error .invalidDigit
  | '+' :: rest => parseDigits bound 0 rest
  | src => parseDigits bound 0 src

/-- The text is a numeral of the number. -/
def Numeral (n : ℕ) (src : List Char) : Prop :=
  ∃ digits : List Char, digits ≠ [] ∧ (∀ c ∈ digits, c.isDigit) ∧ Nat.ofDigitChars 10 digits 0 = n ∧
    (src = digits ∨ src = '+' :: digits)

/-- Reading on does not make a number smaller. -/
theorem le_ofDigitChars (digits : List Char) : ∀ n : ℕ, n ≤ Nat.ofDigitChars 10 digits n := by
  induction digits with
  | nil =>
      intro n
      exact Nat.le_of_eq Nat.ofDigitChars_nil.symm
  | cons c digits ih =>
      intro n
      rw [Nat.ofDigitChars_cons]
      exact Nat.le_trans (by omega) (ih _)

theorem parseDigits_eq_ok_iff {bound : ℕ} : ∀ {digits : List Char} {n m : ℕ}, n < bound →
    (parseDigits bound n digits = .ok m ↔
      (∀ c ∈ digits, c.isDigit) ∧ Nat.ofDigitChars 10 digits n = m ∧ m < bound) := by
  intro digits
  induction digits with
  | nil =>
      intro n m hn
      rw [parseDigits, Except.ok.injEq, Nat.ofDigitChars_nil]
      constructor
      · rintro rfl
        exact ⟨by simp, rfl, hn⟩
      · exact fun h => h.2.1
  | cons c digits ih =>
      intro n m hn
      rw [parseDigits, Nat.ofDigitChars_cons, List.forall_mem_cons]
      by_cases hc : c.isDigit = true
      · rw [if_pos hc]
        by_cases hlt : 10 * n + (c.toNat - '0'.toNat) < bound
        · rw [if_pos hlt, ih hlt, and_iff_right hc]
        · -- the number is too large already
          rw [if_neg hlt]
          refine iff_of_false (by simp) ?_
          rintro ⟨-, rfl, hm⟩
          exact hlt (Nat.lt_of_le_of_lt (le_ofDigitChars digits _) hm)
      · rw [if_neg hc]
        exact iff_of_false (by simp) fun h => hc h.1.1

/-- **What is read as a number.** -/
theorem parseUnsigned_eq_ok_iff {bound : ℕ} (hbound : 0 < bound) {src : List Char} {n : ℕ} :
    parseUnsigned bound src = .ok n ↔ Numeral n src ∧ n < bound := by
  have hplus : ¬ '+'.isDigit := by decide
  have hminus : ¬ '-'.isDigit := by decide
  -- a text that does not start with a sign
  have hread : ∀ {digits : List Char}, digits ≠ [] →
      (parseDigits bound 0 digits = .ok n ↔ (digits ≠ [] ∧ (∀ c ∈ digits, c.isDigit) ∧
        Nat.ofDigitChars 10 digits 0 = n) ∧ n < bound) := by
    intro digits hne
    rw [parseDigits_eq_ok_iff hbound, and_iff_right hne, and_assoc]
  unfold parseUnsigned
  split
  · refine iff_of_false (by simp) ?_
    rintro ⟨⟨digits, hne, -, -, h | h⟩, -⟩
    · exact hne h.symm
    · cases h
  · refine iff_of_false (by simp) ?_
    rintro ⟨⟨digits, hne, hdigits, -, h | h⟩, -⟩
    · exact hplus (hdigits _ (by rw [← h]; simp))
    · exact hne (List.tail_eq_of_cons_eq h).symm
  · refine iff_of_false (by simp) ?_
    rintro ⟨⟨digits, hne, hdigits, -, h | h⟩, -⟩
    · exact hminus (hdigits _ (by rw [← h]; simp))
    · cases h
  · rename_i rest hrest
    have hne : rest ≠ [] := fun h => hrest (by rw [h])
    rw [hread hne]
    constructor
    · rintro ⟨⟨-, hdigits, hn⟩, hlt⟩
      exact ⟨⟨rest, hne, hdigits, hn, Or.inr rfl⟩, hlt⟩
    · rintro ⟨⟨digits, -, hdigits, hn, h | h⟩, hlt⟩
      · exact absurd (hdigits '+' (by rw [← h]; simp)) hplus
      · rw [List.tail_eq_of_cons_eq h]
        exact ⟨⟨List.tail_eq_of_cons_eq h ▸ hne, hdigits, hn⟩, hlt⟩
  · rename_i hnil _ _ hsign
    rw [hread hnil]
    constructor
    · rintro ⟨⟨hne, hdigits, hn⟩, hlt⟩
      exact ⟨⟨src, hne, hdigits, hn, Or.inl rfl⟩, hlt⟩
    · rintro ⟨⟨digits, hne, hdigits, hn, h | h⟩, hlt⟩
      · rw [h]
        exact ⟨⟨hne, hdigits, hn⟩, hlt⟩
      · exact absurd h (hsign digits)

/-! ### Bytes as hexadecimal texts -/

/-- Two digits for each byte. -/
def hexText (bytes : List UInt8) : List Char :=
  bytes.flatMap fun b => [Nat.digitChar (b.toNat / 16), Nat.digitChar (b.toNat % 16)]

theorem digitChar_injective {d e : ℕ} (hd : d < 16) (he : e < 16) (h : Nat.digitChar d = Nat.digitChar e) :
    d = e := by
  have hall : ∀ d e : Fin 16, Nat.digitChar d = Nat.digitChar e → d = e := by decide
  exact congrArg Fin.val (hall ⟨d, hd⟩ ⟨e, he⟩ h)

/-- **The text determines the bytes.** -/
theorem hexText_injective : Function.Injective hexText := by
  intro bytes
  induction bytes with
  | nil =>
      intro bytes' h
      cases bytes' with
      | nil => rfl
      | cons b' bytes' => cases h
  | cons b bytes ih =>
      intro bytes' h
      cases bytes' with
      | nil => cases h
      | cons b' bytes' =>
          rw [hexText, hexText, List.flatMap_cons, List.flatMap_cons, List.cons_append, List.cons_append,
            List.cons_append, List.cons_append, List.nil_append, List.nil_append, List.cons.injEq,
            List.cons.injEq] at h
          obtain ⟨hhigh, hlow, hrest⟩ := h
          have hb := b.toNat_lt
          have hb' := b'.toNat_lt
          have hhigh' := digitChar_injective (by omega) (by omega) hhigh
          have hlow' := digitChar_injective (by omega) (by omega) hlow
          rw [ih hrest, UInt8.toNat_inj.1 (by omega : b.toNat = b'.toNat)]

end NumberTexts
