/-! Blank characters, and texts with their blanks taken out. -/

namespace DocPath

/-- A character is blank when it has the Unicode property White_Space. -/
def isBlank (c : Char) : Bool :=
  let n := c.toNat
  (9 ≤ n && n ≤ 13) || n == 0x20 || n == 0x85 || n == 0xA0 || n == 0x1680 ||
    (0x2000 ≤ n && n ≤ 0x200A) || n == 0x2028 || n == 0x2029 || n == 0x202F ||
    n == 0x205F || n == 0x3000

/-- Every character of a text that is not blank, in order. -/
def withoutBlanks (text : List Char) : List Char :=
  text.filter (fun c => !isBlank c)

/-- Strings are compared with blanks taken out wherever spacing does not count. -/
def stripBlanks (s : String) : String :=
  String.ofList (withoutBlanks s.toList)

@[simp] theorem withoutBlanks_nil : withoutBlanks [] = [] := rfl

@[simp] theorem withoutBlanks_append (s t : List Char) :
    withoutBlanks (s ++ t) = withoutBlanks s ++ withoutBlanks t :=
  List.filter_append ..

theorem withoutBlanks_cons {c : Char} (h : isBlank c = false) (text : List Char) :
    withoutBlanks (c :: text) = c :: withoutBlanks text := by
  simp [withoutBlanks, h]

theorem withoutBlanks_cons_of_blank {c : Char} (h : isBlank c = true) (text : List Char) :
    withoutBlanks (c :: text) = withoutBlanks text := by
  simp [withoutBlanks, h]

theorem withoutBlanks_eq_nil_iff {text : List Char} :
    withoutBlanks text = [] ↔ ∀ c ∈ text, isBlank c = true := by
  simp [withoutBlanks]

theorem withoutBlanks_sublist {text more : List Char} (h : text.Sublist more) :
    (withoutBlanks text).Sublist (withoutBlanks more) :=
  h.filter _

@[simp] theorem withoutBlanks_withoutBlanks (s : List Char) :
    withoutBlanks (withoutBlanks s) = withoutBlanks s := by
  simp [withoutBlanks]

@[simp] theorem stripBlanks_stripBlanks (s : String) :
    stripBlanks (stripBlanks s) = stripBlanks s := by
  simp [stripBlanks]

end DocPath
