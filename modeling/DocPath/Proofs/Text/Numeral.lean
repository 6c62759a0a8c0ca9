import DocPath.Text.Numeral
import Mathlib.Data.List.Basic
import Mathlib.Tactic.IntervalCases

/-! # Numerals and their digits

A number written in decimal has no zeros in front. A numeral is the text of the number it stands
for just if it has none either. -/

namespace DocPath

namespace Numeral

/-- A numeral that fits a machine word, with zeros in front of the number. -/
def Padded (digits : List Char) : Prop :=
  (word? digits).isSome = true ∧ 1 < digits.length ∧ digits.head? = some '0'

instance (digits : List Char) : Decidable (Padded digits) :=
  inferInstanceAs (Decidable (_ ∧ _))

theorem toDigits_of_isDigit {c : Char} (h : c.isDigit = true) :
    Nat.toDigits 10 (c.toNat - '0'.toNat) = [c] := by
  obtain ⟨hlow, hhigh⟩ : 48 ≤ c.toNat ∧ c.toNat ≤ 57 := Char.isDigit_iff_toNat.mp h
  rw [← Char.ofNat_toNat c]
  interval_cases c.toNat <;> decide

/-- Reading on behind a number other than zero appends the digits that are read. -/
theorem toDigits_ofDigitChars {digits : List Char} {n : Nat} (hn : 0 < n)
    (h : ∀ c ∈ digits, c.isDigit = true) :
    Nat.toDigits 10 (Nat.ofDigitChars 10 digits n) = Nat.toDigits 10 n ++ digits := by
  induction digits generalizing n with
  | nil => rw [Nat.ofDigitChars_nil, List.append_nil]
  | cons c digits ih =>
      obtain ⟨hc, hdigits⟩ := List.forall_mem_cons.mp h
      have hlt : c.toNat - '0'.toNat < 10 :=
        Nat.sub_lt_left_of_lt_add (Char.isDigit_iff_toNat.mp hc).1
          (Nat.lt_succ_of_le (Char.isDigit_iff_toNat.mp hc).2)
      have happend := Nat.toDigits_append_toDigits (by decide) hn hlt
      rw [Nat.ofDigitChars_cons, ih (by omega) hdigits, ← happend, toDigits_of_isDigit hc,
        List.append_assoc, List.singleton_append]

theorem head?_toDigits_ne {n : Nat} (h : 0 < n) : (Nat.toDigits 10 n).head? ≠ some '0' := by
  induction n using Nat.strongRecOn with
  | _ n ih =>
      rw [Nat.toDigits_eq_if (by decide)]
      split
      · interval_cases n <;> decide
      · rw [List.head?_append_of_ne_nil _ Nat.toDigits_ne_nil]
        exact ih (n / 10) (by omega) (by omega)

theorem toDigits_eq_iff_not_padded {digits : List Char} {n : Nat} (h : word? digits = some n) :
    Nat.toDigits 10 n = digits ↔ ¬ Padded digits := by
  obtain ⟨hne, hdigits, hvalue, -⟩ := word?_eq_some_iff.mp h
  constructor
  · rintro rfl ⟨-, hlength, hhead⟩
    cases n with
    | zero => exact absurd hlength (by decide)
    | succ n => exact head?_toDigits_ne (Nat.succ_pos n) hhead
  · intro hpadded
    cases digits with
    | nil => exact absurd rfl hne
    | cons c digits =>
        obtain ⟨hc, hrest⟩ := List.forall_mem_cons.mp hdigits
        rw [Nat.ofDigitChars_cons, Nat.mul_zero, Nat.zero_add] at hvalue
        by_cases hzero : c = '0'
        · obtain rfl : digits = [] := by
            by_contra hne
            have hlength := List.length_pos_iff.mpr hne
            exact hpadded ⟨by rw [h]; rfl, Nat.succ_lt_succ hlength, by rw [hzero]; rfl⟩
          rw [← hvalue, hzero]
          rfl
        · have hpos : 0 < c.toNat - '0'.toNat := by
            refine Nat.sub_pos_of_lt (lt_of_le_of_ne (Char.isDigit_iff_toNat.mp hc).1 fun heq => ?_)
            exact hzero (Char.toNat_inj.mp heq.symm)
          rw [← hvalue, toDigits_ofDigitChars hpos hrest, toDigits_of_isDigit hc,
            List.singleton_append]

end Numeral

end DocPath
