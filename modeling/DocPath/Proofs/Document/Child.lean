import DocPath.Document.Basic

/-! # One step of a route

What a container takes under a key, and what its other children see of a write. -/

namespace DocPath

namespace Document

/-! ## Elements of arrays -/

/-- An array takes an element where it has one already, or so little behind its end that the
padding stays within its limit and the new length within a machine word. -/
def Reaches (items : List Document) (n : Nat) : Prop :=
  n < items.length ∨ (n + 1 < Numeral.wordLimit ∧ n + 1 - items.length ≤ paddingLimit)

instance (items : List Document) (n : Nat) : Decidable (Reaches items n) :=
  inferInstanceAs (Decidable (_ ∨ _))

/-- On every array whose own length fits a machine word the limits alone decide. -/
theorem reaches_iff_of_length_lt {items : List Document} {n : Nat}
    (h : items.length < Numeral.wordLimit) :
    Reaches items n ↔ n + 1 < Numeral.wordLimit ∧ n + 1 - items.length ≤ paddingLimit := by
  unfold Reaches
  omega

theorem setItem_of_lt {items : List Document} {n : Nat} (h : n < items.length)
    (value : Document) : setItem items n value = items.set n value := by
  simp [setItem, h]

theorem setItem_of_length_le {items : List Document} {n : Nat} (h : Reaches items n)
    (hle : items.length ≤ n) (value : Document) :
    setItem items n value =
      items ++ (List.replicate (n - items.length) null ++ [value]) := by
  have hlt : ¬ n < items.length := Nat.not_lt_of_le hle
  have hpad := h.resolve_left hlt
  simp [setItem, hlt, hpad]

theorem setItem_of_not_reaches {items : List Document} {n : Nat} (h : ¬ Reaches items n)
    (value : Document) : setItem items n value = items := by
  unfold Reaches at h
  rw [setItem, if_neg (by omega), if_neg]
  simp only [Bool.and_eq_true, decide_eq_true_eq]
  omega

theorem getElem?_setItem_self {items : List Document} {n : Nat} (h : Reaches items n)
    (value : Document) : (setItem items n value)[n]? = some value := by
  by_cases hlt : n < items.length
  · rw [setItem_of_lt hlt, List.getElem?_set_self hlt]
  · have hle : items.length ≤ n := Nat.le_of_not_lt hlt
    rw [setItem_of_length_le h hle, List.getElem?_append_right hle,
      List.getElem?_append_right (by simp)]
    simp

/-- Another element is what it was, or a null of the padding. -/
theorem getElem?_setItem_of_ne {items : List Document} {n m : Nat} (h : m ≠ n)
    (value : Document) :
    (setItem items n value)[m]? = items[m]? ∨
      (items[m]? = none ∧ (setItem items n value)[m]? = some null) := by
  by_cases hr : Reaches items n
  · by_cases hlt : n < items.length
    · left
      rw [setItem_of_lt hlt, List.getElem?_set_ne (Ne.symm h)]
    · rw [setItem_of_length_le hr (Nat.le_of_not_lt hlt)]
      by_cases hm : m < items.length
      · left
        rw [List.getElem?_append_left hm]
      · have hle : items.length ≤ m := Nat.le_of_not_lt hm
        rw [List.getElem?_append_right hle, List.getElem?_eq_none hle]
        by_cases hmn : m < n
        · right
          refine ⟨rfl, ?_⟩
          rw [List.getElem?_append_left (by simp; omega)]
          exact List.getElem?_replicate_of_lt (by omega)
        · left
          exact List.getElem?_eq_none (by simp; omega)
  · left
    rw [setItem_of_not_reaches hr]

theorem setItem_setItem (items : List Document) (n : Nat) (first second : Document) :
    setItem (setItem items n first) n second = setItem items n second := by
  by_cases hr : Reaches items n
  · by_cases hlt : n < items.length
    · simp [setItem_of_lt, hlt]
    · have hle : items.length ≤ n := Nat.le_of_not_lt hlt
      rw [setItem_of_length_le hr hle, setItem_of_length_le hr hle,
        setItem_of_lt (by simp; omega), List.set_append_right _ _ hle,
        List.set_append_right _ _ (by simp)]
      simp
  · rw [setItem_of_not_reaches hr]

/-! ## Children -/

/-- A write can give a document a child under this key. -/
def Takes : Document → Key → Prop
  | object _, _ => True
  | array items, .index n => Reaches items n
  | _, _ => False

instance (doc : Document) (key : Key) : Decidable (doc.Takes key) :=
  match doc, key with
  | object _, _ => isTrue trivial
  | array items, .index n => inferInstanceAs (Decidable (Reaches items n))
  | array _, .name _ | null, _ | bool _, _ | number _, _ | text _, _ => isFalse id

/-- Objects take everything, arrays the indices that they reach, and nothing else takes
anything. -/
theorem takes_cases {doc : Document} {key : Key} (h : doc.Takes key) :
    (∃ entries, doc = object entries) ∨
      ∃ items n, doc = array items ∧ key = .index n ∧ Reaches items n := by
  cases doc with
  | object entries => exact Or.inl ⟨entries, rfl⟩
  | array items =>
      cases key with
      | index n => exact Or.inr ⟨items, n, rfl, rfl, h⟩
      | name s => exact h.elim
  | null | bool _ | number _ | text _ => exact h.elim

theorem takes_of_child?_eq_some {doc child : Document} {key : Key}
    (h : doc.child? key = some child) : doc.Takes key := by
  cases doc with
  | object entries => trivial
  | array items =>
      cases key with
      | index n => exact Or.inl (List.getElem?_eq_some_iff.mp h).1
      | name s => simp [child?] at h
  | null | bool _ | number _ | text _ => simp [child?] at h

theorem child?_eq_none_of_not_takes {doc : Document} {key : Key} (h : ¬ doc.Takes key) :
    doc.child? key = none :=
  Option.eq_none_iff_forall_ne_some.mpr fun _ hc => h (takes_of_child?_eq_some hc)

theorem assign_of_not_takes {doc : Document} {key : Key} (h : ¬ doc.Takes key)
    (value : Document) : doc.assign key value = doc := by
  cases doc with
  | object entries => exact absurd trivial h
  | array items =>
      cases key with
      | index n => exact congrArg array (setItem_of_not_reaches h value)
      | name s => rfl
  | null | bool _ | number _ | text _ => rfl

theorem child?_assign_self {doc : Document} {key : Key} (h : doc.Takes key)
    (value : Document) : (doc.assign key value).child? key = some value := by
  rcases takes_cases h with ⟨entries, rfl⟩ | ⟨items, n, rfl, rfl, hr⟩
  · simp [assign, child?]
  · exact getElem?_setItem_self hr value

@[simp] theorem assign_assign (doc : Document) (key : Key) (first second : Document) :
    (doc.assign key first).assign key second = doc.assign key second := by
  by_cases h : doc.Takes key
  · rcases takes_cases h with ⟨entries, rfl⟩ | ⟨items, n, rfl, rfl, hr⟩
    · exact congrArg object (putEntry_putEntry key.render first second entries)
    · exact congrArg array (setItem_setItem items n first second)
  · simp only [assign_of_not_takes h]

/-- A child put in its own place changes nothing. -/
theorem assign_of_child? {doc child : Document} {key : Key} (h : doc.child? key = some child) :
    doc.assign key child = doc := by
  rcases takes_cases (takes_of_child?_eq_some h) with ⟨entries, rfl⟩ | ⟨items, n, rfl, rfl, -⟩
  · exact congrArg object (putEntry_of_lookup h)
  · obtain ⟨hlt, rfl⟩ := List.getElem?_eq_some_iff.mp h
    simp [assign, setItem_of_lt hlt]

@[simp] theorem isContainer_assign (doc : Document) (key : Key) (value : Document) :
    (doc.assign key value).isContainer = doc.isContainer := by
  cases doc <;> cases key <;> rfl

theorem isNull_of_isContainer {doc : Document} (h : doc.isContainer = true) :
    doc.isNull = false := by
  cases doc <;> simp_all [isContainer, isNull]

end Document

end DocPath
