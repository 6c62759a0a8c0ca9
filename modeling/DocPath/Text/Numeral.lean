/-! Numerals: reading them back and the ranges they are held to. -/

namespace DocPath.Numeral

/-- Natural numbers are machine words when they lie below this bound. -/
def wordLimit : Nat := UInt64.size

/-- Signed machine words run from `-signedLimit` to just below `signedLimit`. -/
def signedLimit : Int := (UInt64.size / 2 : Nat)

/-- The number a nonempty run of decimal digits stands for. Leading zeros are allowed. -/
def natural? (digits : List Char) : Option Nat :=
  if !digits.isEmpty && digits.all Char.isDigit then some (Nat.ofDigitChars 10 digits 0) else none

/-- A run of digits behind at most one sign. -/
def integer? : List Char → Option Int
  | '-' :: digits => (natural? digits).map fun n => -(n : Int)
  | '+' :: digits => (natural? digits).map fun n => (n : Int)
  | digits => (natural? digits).map fun n => (n : Int)

/-- A natural numeral that fits a machine word. -/
def word? (digits : List Char) : Option Nat :=
  (natural? digits).filter (· < wordLimit)

/-- An integer numeral that fits a signed machine word. -/
def signedWord? (text : List Char) : Option Int :=
  (integer? text).filter fun n => -signedLimit ≤ n && n < signedLimit

theorem word?_eq_some_iff {digits : List Char} {n : Nat} :
    word? digits = some n ↔ digits ≠ [] ∧ (∀ c ∈ digits, c.isDigit = true) ∧
      Nat.ofDigitChars 10 digits 0 = n ∧ n < wordLimit := by
  simp only [word?, natural?, Option.filter_eq_some_iff, Option.ite_none_right_eq_some,
    Bool.and_eq_true, Bool.not_eq_true', List.isEmpty_eq_false_iff, List.all_eq_true,
    Option.some.injEq, decide_eq_true_eq, and_assoc]

/-! ## Other bases -/

/-- The value of a digit in a base of at most sixteen. -/
def digit? (base : Nat) (c : Char) : Option Nat :=
  let n :=
    if c.isDigit then c.toNat - 48
    else if 'a' ≤ c && c ≤ 'f' then c.toNat - 87
    else if 'A' ≤ c && c ≤ 'F' then c.toNat - 55
    else base
  if n < base then some n else none

/-- The number a nonempty run of digits stands for in a base. -/
def naturalIn? (base : Nat) (digits : List Char) : Option Nat :=
  if digits.isEmpty then none
  else digits.foldlM (fun n c => (digit? base c).map (n * base + ·)) 0

/-- The character with the code that a run of hexadecimal digits stands for. -/
def char? (digits : List Char) : Option Char :=
  (naturalIn? 16 digits).bind fun n =>
    if (0xD800 ≤ n && n ≤ 0xDFFF) || 0x10FFFF < n then none else some (Char.ofNat n)

/-! ## Round trips -/

theorem natural?_toDigits (n : Nat) : natural? (Nat.toDigits 10 n) = some n := by
  have hd : (Nat.toDigits 10 n).all Char.isDigit = true :=
    List.all_eq_true.mpr fun c hc =>
      Nat.isDigit_of_mem_toDigits (by decide) (by decide) hc
  simp [natural?, hd, Nat.toDigits_ne_nil]

/-- Digits begin with no sign. -/
theorem integer?_toDigits (n : Nat) : integer? (Nat.toDigits 10 n) = some (n : Int) := by
  have hd : ∀ c ∈ Nat.toDigits 10 n, c.isDigit = true :=
    fun c hc => Nat.isDigit_of_mem_toDigits (by decide) (by decide) hc
  rw [integer?.eq_def]
  split
  · rename_i digits he
    have := hd '-' (by simp [he])
    contradiction
  · rename_i digits he
    have := hd '+' (by simp [he])
    contradiction
  · simp [natural?_toDigits]

theorem integer?_toString (n : Int) : integer? (toString n).toList = some n := by
  cases n with
  | ofNat n => simpa [toString, Int.repr] using integer?_toDigits n
  | negSucc n =>
      have he : (toString (Int.negSucc n)).toList = '-' :: Nat.toDigits 10 (n + 1) := by
        simp [toString, Int.repr]
      rw [he, integer?, natural?_toDigits]
      rfl

theorem signedWord?_toString {n : Int} (hl : -signedLimit ≤ n) (hu : n < signedLimit) :
    signedWord? (toString n).toList = some n := by
  rw [signedWord?, integer?_toString]
  simp [hl, hu]

/-- The digits of a natural number are read as a signed machine word as long as it fits one. -/
theorem signedWord?_toDigits (n : Nat) :
    signedWord? (Nat.toDigits 10 n) = if (n : Int) < signedLimit then some (n : Int) else none := by
  have hlow : -signedLimit ≤ (n : Int) := by
    have hlimit : 0 ≤ signedLimit := by decide
    omega
  rw [signedWord?, integer?_toDigits, Option.filter_some]
  simp [hlow]

theorem word?_toDigits {n : Nat} (h : n < wordLimit) : word? (Nat.toDigits 10 n) = some n := by
  simp [word?, natural?_toDigits, h]

end DocPath.Numeral
