import DocPath.Json.Reader
import DocPath.Json.Writer
import DocPath.Proofs.Text.Numeral

/-! # Texts and numbers read back from JSON

A text in quotes is read back whatever follows it, and a whole number as long as what follows does
not go on with it. -/

namespace DocPath

namespace Json

/-! ## Texts -/

/-- A character stands for itself or behind a backslash, and a control without an escape of its
own by its code. -/
theorem escape_cases (c : Char) :
    (∃ e, escape c = ['\\', e] ∧ e ≠ 'u' ∧ unescape? e = some c) ∨
    (escape c = ['\\', 'u', '0', '0', hexDigit (c.toNat / 16), hexDigit (c.toNat % 16)] ∧
      c.toNat < 0x20) ∨
    (escape c = [c] ∧ c ≠ '"' ∧ c ≠ '\\' ∧ 0x20 ≤ c.toNat) := by
  rw [escape.eq_def]
  split_ifs with hquote hbackslash hb hf hn hr ht hcontrol
  · exact Or.inl ⟨'"', rfl, by decide, by rw [hquote]; rfl⟩
  · exact Or.inl ⟨'\\', rfl, by decide, by rw [hbackslash]; rfl⟩
  · exact Or.inl ⟨'b', rfl, by decide, by rw [hb]; rfl⟩
  · exact Or.inl ⟨'f', rfl, by decide, by rw [hf]; rfl⟩
  · exact Or.inl ⟨'n', rfl, by decide, by rw [hn]; rfl⟩
  · exact Or.inl ⟨'r', rfl, by decide, by rw [hr]; rfl⟩
  · exact Or.inl ⟨'t', rfl, by decide, by rw [ht]; rfl⟩
  · exact Or.inr (Or.inl ⟨rfl, hcontrol⟩)
  · exact Or.inr (Or.inr ⟨rfl, hquote, hbackslash, Nat.le_of_not_lt hcontrol⟩)

theorem naturalIn?_code : ∀ n < 0x20,
    Numeral.naturalIn? 16 ['0', '0', hexDigit (n / 16), hexDigit (n % 16)] = some n := by
  decide

theorem textBody_escape (c : Char) (rest : List Char) :
    textBody (escape c ++ rest) = (textBody rest).map fun r => (c :: r.1, r.2) := by
  obtain ⟨e, hescape, hu, hc⟩ | ⟨hescape, hcontrol⟩ | ⟨hescape, hquote, hbackslash, hplain⟩ :=
    escape_cases c
  · rw [hescape, List.cons_append, List.cons_append, List.nil_append,
      textBody.eq_4 _ _ (by simp [hu]), hc]
    cases textBody rest <;> rfl
  · have hlow : isLowSurrogate c.toNat = false := by
      simp [isLowSurrogate]
      omega
    have hhigh : isHighSurrogate c.toNat = false := by
      simp [isHighSurrogate]
      omega
    rw [hescape]
    simp only [List.cons_append, List.nil_append]
    rw [textBody.eq_3, naturalIn?_code _ hcontrol]
    simp only [Option.bind_eq_bind, Option.bind_some, hlow, hhigh, Char.ofNat_toNat]
    cases textBody rest <;> rfl
  · rw [hescape, List.singleton_append, textBody.eq_5 _ _ hquote (by simp [hbackslash])
      (by simp [hbackslash]), if_neg (by simp [hbackslash]; omega)]
    cases textBody rest <;> rfl

theorem textBody_flatMap_escape (text rest : List Char) :
    textBody (text.flatMap escape ++ '"' :: rest) = some (text, rest) := by
  induction text with
  | nil => exact textBody.eq_2 rest
  | cons c text ih =>
      rw [List.flatMap_cons, List.append_assoc, textBody_escape, ih, Option.map_some]

/-! ## Numbers -/

/-- What may follow a value: a comma, a closing bracket, the end of a line, or nothing. -/
def Closes (rest : List Char) : Prop := ∀ c ∈ rest.head?, c ∈ [',', ']', '}', '\n']

theorem Closes.isDigit_eq_false {c : Char} {rest : List Char} (h : Closes (c :: rest)) :
    c.isDigit = false := by
  have hc : c ∈ [',', ']', '}', '\n'] := h c rfl
  simp only [List.mem_cons, List.not_mem_nil, or_false] at hc
  rcases hc with rfl | rfl | rfl | rfl <;> rfl

theorem le_ofDigitChars (digits : List Char) (n : Nat) : n ≤ Nat.ofDigitChars 10 digits n := by
  induction digits generalizing n with
  | nil => rw [Nat.ofDigitChars_nil]
  | cons c digits ih =>
      rw [Nat.ofDigitChars_cons]
      have hrest := ih (10 * n + (c.toNat - '0'.toNat))
      omega

theorem integerDigits_of_closes {rest : List Char} (h : Closes rest) (negative : Bool)
    (word : Nat) : integerDigits negative word rest = some (integer negative word, rest) := by
  cases rest with
  | nil => rfl
  | cons c rest =>
      have hc : c ∈ [',', ']', '}', '\n'] := h c rfl
      simp only [List.mem_cons, List.not_mem_nil, or_false] at hc
      rcases hc with rfl | rfl | rfl | rfl <;> rfl

theorem integerDigits_cons_of_isDigit {c : Char} (hc : c.isDigit = true) {word next : Nat}
    (hpush : pushDigit? word (digitOf c) = some next) (negative : Bool) (rest : List Char) :
    integerDigits negative word (c :: rest) = integerDigits negative next rest := by
  change (if c.isDigit = true then _ else _) = integerDigits negative next rest
  rw [if_pos hc, hpush]

/-- The digits fill no more than a machine word. -/
theorem integerDigits_append {digits rest : List Char} {word : Nat}
    (hdigits : ∀ c ∈ digits, c.isDigit = true)
    (hword : Nat.ofDigitChars 10 digits word < Numeral.wordLimit) (h : Closes rest)
    (negative : Bool) : integerDigits negative word (digits ++ rest) =
      some (integer negative (Nat.ofDigitChars 10 digits word), rest) := by
  induction digits generalizing word with
  | nil => exact integerDigits_of_closes h negative word
  | cons c digits ih =>
      obtain ⟨hc, hrest⟩ := List.forall_mem_cons.mp hdigits
      rw [Nat.ofDigitChars_cons] at hword ⊢
      have hpush : pushDigit? word (digitOf c) = some (10 * word + (c.toNat - '0'.toNat)) := by
        have hnext : word * 10 + digitOf c = 10 * word + (c.toNat - '0'.toNat) := by
          rw [Nat.mul_comm]
          rfl
        have hfits := (le_ofDigitChars digits _).trans_lt hword
        simp only [pushDigit?, hnext, if_pos hfits]
      rw [List.cons_append, integerDigits_cons_of_isDigit hc hpush]
      exact ih hrest hword

theorem exists_cons_toDigits (n : Nat) :
    ∃ c digits, Nat.toDigits 10 n = c :: digits ∧ c.isDigit = true := by
  obtain ⟨c, digits, heq⟩ := List.exists_cons_of_ne_nil (Nat.toDigits_ne_nil (b := 10) (n := n))
  refine ⟨c, digits, heq, ?_⟩
  exact Nat.isDigit_of_mem_toDigits (by decide) (by decide) (heq ▸ List.mem_cons_self)

theorem unsigned_toDigits {n : Nat} (hn : n < Numeral.wordLimit) {rest : List Char}
    (h : Closes rest) (negative : Bool) :
    unsigned negative (Nat.toDigits 10 n ++ rest) = some (integer negative n, rest) := by
  have hdigits : ∀ c ∈ Nat.toDigits 10 n, c.isDigit = true :=
    fun c hc => Nat.isDigit_of_mem_toDigits (by decide) (by decide) hc
  have hread : integerDigits negative 0 (Nat.toDigits 10 n ++ rest) =
      some (integer negative n, rest) := by
    have hvalue := Nat.ofDigitChars_ten_toDigits (n := n)
    have happend := integerDigits_append hdigits (hvalue.symm ▸ hn) h negative
    rwa [hvalue] at happend
  cases n with
  | zero =>
      cases rest with
      | nil => rfl
      | cons c rest =>
          have hc : c.isDigit = false := h.isDigit_eq_false
          change unsigned negative ('0' :: c :: rest) = _
          rw [unsigned, hc]
          exact integerDigits_of_closes h negative 0
  | succ n =>
      obtain ⟨c, digits, heq, hc⟩ := exists_cons_toDigits (n + 1)
      have hzero : c ≠ '0' := by
        have hhead := Numeral.head?_toDigits_ne (Nat.succ_pos n)
        rw [heq] at hhead
        exact fun hc => hhead (congrArg some hc)
      rw [heq] at hread ⊢
      rw [List.cons_append, unsigned.eq_2 _ _ _ (by simp [hzero]), if_pos hc]
      exact hread

/-- A whole number begins with a sign or with a digit. -/
theorem exists_cons_wholeText (n : Int) :
    ∃ c text, Number.wholeText n = c :: text ∧ (c = '-' ∨ c.isDigit = true) := by
  rw [Number.wholeText]
  split
  · exact ⟨'-', _, rfl, Or.inl rfl⟩
  · obtain ⟨c, digits, heq, hc⟩ := exists_cons_toDigits n.natAbs
    exact ⟨c, digits, heq, Or.inr hc⟩

/-- A whole number that fits a machine word, with or without sign. -/
def FitsWord (n : Int) : Prop := -Numeral.signedLimit ≤ n ∧ n < Numeral.wordLimit

instance (n : Int) : Decidable (FitsWord n) := inferInstanceAs (Decidable (_ ∧ _))

theorem number_wholeText {n : Int} (hn : FitsWord n) {rest : List Char} (h : Closes rest) :
    number (Number.wholeText n ++ rest) = some (.whole n, rest) := by
  obtain ⟨hlow, hhigh⟩ := hn
  have hlimits : Numeral.signedLimit < (Numeral.wordLimit : Int) := by decide
  have hword : n.natAbs < Numeral.wordLimit := by omega
  rw [Number.wholeText]
  by_cases hneg : n < 0
  · have hsmall : ¬ (n.natAbs == 0 || decide (Numeral.signedLimit < n.natAbs)) = true := by
      rw [Bool.or_eq_true, beq_iff_eq, decide_eq_true_eq]
      omega
    have hvalue : -(n.natAbs : Int) = n := by omega
    rw [if_pos hneg, List.cons_append, number, unsigned_toDigits hword h, integer,
      if_neg (by decide), if_neg hsmall, hvalue]
  · have hvalue : (n.natAbs : Int) = n := by omega
    obtain ⟨c, digits, heq, hc⟩ := exists_cons_toDigits n.natAbs
    have hsign : c ≠ '-' := by
      rintro rfl
      exact absurd hc (by decide)
    have hread := unsigned_toDigits hword h false
    rw [heq, List.cons_append] at hread
    rw [if_neg hneg, heq, List.cons_append, number.eq_2 _ (by simp [hsign]), hread, integer,
      if_pos (by decide), hvalue]

end Json

end DocPath
