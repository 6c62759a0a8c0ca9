import DocPath.Proofs.Document.Frame

/-! # How far a write lengthens arrays

An array on the way of a write gets no more than a fixed number of new elements, all of them null
but for the one that the write goes through, and no element is ever stored outside of an array. -/

namespace DocPath

namespace Document

variable {doc value : Document} {key : Key} {front rest : List Key}

/-! ## Arrays on a route -/

/-- The elements of the array at the end of a route. Where no array stands there are none. -/
def itemsAt (doc : Document) (keys : List Key) : List Document :=
  match doc.find? keys with
  | some (array items) => items
  | _ => []

theorem itemsAt_of_find? {items : List Document} (h : doc.find? front = some (array items)) :
    doc.itemsAt front = items := by
  rw [itemsAt, h]

theorem itemsAt_of_isContainer_eq_false (h : doc.isContainer = false) : doc.itemsAt front = [] := by
  cases front with
  | nil => cases doc <;> first | rfl | cases h
  | cons key front =>
      have hc : doc.child? key = none := by
        cases doc with
        | array | object => cases h
        | null | bool _ | number _ | text _ => rfl
      rw [itemsAt, find?, hc, Option.bind_none]

theorem itemsAt_fresh (indexed : Bool) (front : List Key) :
    (containerAt.fresh indexed).itemsAt front = [] := by
  cases front with
  | nil => cases indexed <;> rfl
  | cons key front => cases indexed <;> cases key <;> rfl

/-- A container that a write has made holds no elements yet. -/
theorem itemsAt_containerAt (doc : Document) (key : Key) (indexed : Bool) (front : List Key) :
    (doc.containerAt key indexed).itemsAt front = doc.itemsAt (key :: front) := by
  have hstep : doc.itemsAt (key :: front) = (doc.child? key).elim [] (·.itemsAt front) := by
    rw [itemsAt, find?]
    cases doc.child? key <;> rfl
  rw [hstep, containerAt]
  cases doc.child? key with
  | none => exact itemsAt_fresh indexed front
  | some child =>
      rw [Option.elim_some]
      by_cases hcontainer : child.isContainer = true
      · simp only [hcontainer, if_true]
      · simp only [hcontainer, Bool.false_eq_true, if_false, itemsAt_fresh,
          itemsAt_of_isContainer_eq_false (Bool.eq_false_iff.mpr hcontainer)]

/-! ## Stores that are checked -/

/-- The array with nulls behind it until it has an element `index`. This is refused where the new
length would not be a machine word, or where it would take too many nulls. -/
def extend? (items : List Document) (index : Nat) : Option (List Document) :=
  if index + 1 < Numeral.wordLimit ∧ index + 1 - items.length ≤ paddingLimit then
    some (items ++ List.replicate (index + 1 - items.length) null)
  else none

/-- The array with a value stored in it after it has been extended. A store out of bounds fails;
where the array is not extended, nothing is stored. -/
def storeItem? (items : List Document) (index : Nat) (value : Document) :
    Option (List Document) :=
  match extend? items index with
  | some longer => if index < longer.length then some (longer.set index value) else none
  | none => some items

/-- A child put in place by a checked store. -/
def assign? (doc : Document) (key : Key) (value : Document) : Option Document :=
  match doc, key with
  | array items, .index n => (storeItem? items n value).map array
  | doc, key => some (doc.assign key value)

/-- A write that fails as soon as it stores out of bounds. -/
def put? (doc : Document) (keys : List Key) (value : Document) : Option Document :=
  match keys with
  | [] => some doc
  | key :: rest =>
      if value.isNull && doc.lacks key then some doc
      else
        match rest with
        | [] => doc.assign? key value
        | next :: _ => ((doc.containerAt key next.isIndex).put? rest value).bind (doc.assign? key)

/-- The lengths of the arrays on a route are machine words. -/
def Measured (doc : Document) (keys : List Key) : Prop :=
  ∀ front, front <+: keys → (doc.itemsAt front).length < Numeral.wordLimit

theorem lt_length_of_extend? {items longer : List Document} {index : Nat}
    (h : extend? items index = some longer) : index < longer.length := by
  rw [extend?] at h
  split at h
  · cases h
    simp
    omega
  · cases h

theorem set_extended (items : List Document) {index : Nat} (value : Document)
    (h : items.length ≤ index) :
    (items ++ List.replicate (index + 1 - items.length) null).set index value =
      items ++ (List.replicate (index - items.length) null ++ [value]) := by
  rw [Nat.succ_sub h, List.replicate_succ', List.set_append_right _ _ h,
    List.set_append_right _ _ (by simp)]
  simp

/-- A store is never out of bounds, and comes to setting the element. -/
theorem storeItem?_eq_some {items : List Document} (hlength : items.length < Numeral.wordLimit)
    (index : Nat) (value : Document) :
    storeItem? items index value = some (setItem items index value) := by
  have hreach := reaches_iff_of_length_lt (n := index) hlength
  by_cases h : Reaches items index
  · have hextend : extend? items index =
        some (items ++ List.replicate (index + 1 - items.length) null) := if_pos (hreach.mp h)
    rw [storeItem?, hextend]
    simp only
    rw [if_pos (lt_length_of_extend? hextend)]
    by_cases hlt : index < items.length
    · have hnone : index + 1 - items.length = 0 := by omega
      rw [hnone, setItem_of_lt hlt, List.replicate_zero, List.append_nil]
    · have hle := Nat.le_of_not_lt hlt
      rw [set_extended items value hle, setItem_of_length_le h hle]
  · have hextend : extend? items index = none := if_neg (mt hreach.mpr h)
    rw [storeItem?, hextend, setItem_of_not_reaches h]

theorem assign?_eq_some (h : ∀ items, doc = array items → items.length < Numeral.wordLimit)
    (key : Key) (value : Document) : doc.assign? key value = some (doc.assign key value) := by
  cases doc with
  | array items =>
      cases key with
      | index n => rw [assign?, storeItem?_eq_some (h items rfl), Option.map_some, assign]
      | name s => rfl
  | null | bool _ | number _ | text _ | object _ => rfl

theorem Measured.containerAt {keys : List Key} (h : doc.Measured (key :: keys)) (indexed : Bool) :
    (doc.containerAt key indexed).Measured keys := by
  intro front hfront
  rw [itemsAt_containerAt]
  exact h (key :: front) (List.cons_prefix_cons.mpr ⟨rfl, hfront⟩)

/-- No store of a write is out of bounds. -/
theorem put?_eq_some {keys : List Key} (h : doc.Measured keys) (value : Document) :
    doc.put? keys value = some (doc.put keys value) := by
  induction keys generalizing doc with
  | nil => rfl
  | cons key rest ih =>
      have hdoc : ∀ items, doc = array items → items.length < Numeral.wordLimit := by
        rintro items rfl
        exact h [] List.nil_prefix
      rw [put?.eq_def, put.eq_def]
      simp only
      split
      · rfl
      · cases rest with
        | nil => exact assign?_eq_some hdoc key value
        | cons next rest =>
            simp only [ih (h.containerAt next.isIndex), Option.bind_some]
            exact assign?_eq_some hdoc key _

/-! ## One array -/

/-- An array after a write through one of its elements: not many more elements, the old ones kept
and the new ones null, but for the one that the write goes through. -/
structure Grown (key : Key) (old new : List Document) : Prop where
  length_le : old.length ≤ new.length
  length_le_add : new.length ≤ old.length + paddingLimit
  length_lt : old.length < Numeral.wordLimit → new.length < Numeral.wordLimit
  kept : ∀ n < old.length, .index n ≠ key → new[n]? = old[n]?
  padded : ∀ n, old.length ≤ n → n < new.length → .index n ≠ key → new[n]? = some null

theorem grown_refl (key : Key) (items : List Document) : Grown key items items where
  length_le := Nat.le_refl _
  length_le_add := Nat.le_add_right _ _
  length_lt := id
  kept _ _ _ := rfl
  padded _ hle hlt _ := absurd hlt (Nat.not_lt_of_le hle)

theorem length_setItem (items : List Document) (index : Nat) (value : Document) :
    (setItem items index value).length =
      if Reaches items index then max items.length (index + 1) else items.length := by
  split
  case isTrue h =>
    by_cases hlt : index < items.length
    · rw [setItem_of_lt hlt, List.length_set]
      omega
    · rw [setItem_of_length_le h (Nat.le_of_not_lt hlt)]
      simp
      omega
  case isFalse h => rw [setItem_of_not_reaches h]

theorem grown_setItem (items : List Document) (index : Nat) (value : Document) :
    Grown (.index index) items (setItem items index value) := by
  have hlength := length_setItem items index value
  have hother : ∀ n, .index n ≠ Key.index index →
      (setItem items index value)[n]? = items[n]? ∨
        (items[n]? = none ∧ (setItem items index value)[n]? = some null) :=
    fun n hne => getElem?_setItem_of_ne (fun heq => hne (congrArg Key.index heq)) value
  refine ⟨?_, ?_, ?_, ?_, ?_⟩
  · rw [hlength]
    split <;> omega
  · rw [hlength]
    split
    case isTrue h =>
      unfold Reaches at h
      omega
    case isFalse => exact Nat.le_add_right _ _
  · intro hword
    rw [hlength]
    split
    case isTrue h =>
      unfold Reaches at h
      omega
    case isFalse => exact hword
  · intro n hlt hne
    rcases hother n hne with heq | ⟨hnone, -⟩
    · exact heq
    · exact absurd hlt (Nat.not_lt_of_le (List.getElem?_eq_none_iff.mp hnone))
  · intro n hle hlt hne
    rcases hother n hne with heq | ⟨-, hnull⟩
    · rw [List.getElem?_eq_none hle, List.getElem?_eq_none_iff] at heq
      exact absurd hlt (Nat.not_lt_of_le heq)
    · exact hnull

/-! ## Whole routes -/

theorem grown_assign {key : Key} {inner : Document} {new : List Document}
    (h : doc.assign key inner = array new) : Grown key (doc.itemsAt []) new := by
  cases doc with
  | array items =>
      cases key with
      | index n =>
          cases h
          exact grown_setItem items n inner
      | name s =>
          cases h
          exact grown_refl _ _
  | object entries => cases h
  | null | bool _ | number _ | text _ => cases h

theorem grown_put {new : List Document}
    (h : (doc.put (front ++ key :: rest) value).find? front = some (array new)) :
    Grown key (doc.itemsAt front) new := by
  induction front generalizing doc with
  | nil =>
      rw [List.nil_append, find?, Option.some.injEq, put_cons] at h
      split at h
      · subst h
        exact grown_refl key new
      · exact grown_assign h
  | cons first front ih =>
      obtain ⟨next, behind, heq⟩ : ∃ next behind, front ++ key :: rest = next :: behind :=
        List.exists_cons_of_ne_nil (by simp)
      rw [List.cons_append, put_cons, heq] at h
      split at h
      · rw [itemsAt_of_find? h]
        exact grown_refl key new
      · by_cases ht : doc.Takes first
        · rw [find?, child?_assign_self ht, Option.bind_some] at h
          rw [← itemsAt_containerAt doc first next.isIndex]
          apply ih
          rw [heq]
          exact h
        · rw [assign_of_not_takes ht] at h
          rw [itemsAt_of_find? h]
          exact grown_refl key new

theorem exists_find?_put {old : List Document} (h : doc.find? front = some (array old)) :
    ∃ new, (doc.put (front ++ key :: rest) value).find? front = some (array new) := by
  have hget : doc.get? front = some (array old) := by
    rw [get?, h]
    rfl
  obtain ⟨new, hnew, hgrows⟩ := get?_put_append (List.cons_ne_nil key rest) hget rfl value
  cases new with
  | array items => exact ⟨items, (Option.filter_eq_some_iff.mp hnew).1⟩
  | null | bool _ | number _ | text _ | object _ => exact hgrows.elim

/-- A write along keys never stores out of bounds. An array that stands on its way, or that it
makes there, gets no more than a fixed number of new elements, and all but the one on the way are
the old ones or null. -/
theorem put?_eq_some_and_grown (doc value : Document) (keys : List Key) :
    let after := doc.setAt (keys.map .key) value
    (doc.Measured keys → doc.put? keys value = some after) ∧
    ∀ front key rest, keys = front ++ key :: rest →
      (∀ old, doc.find? front = some (array old) →
        ∃ new, after.find? front = some (array new) ∧ Grown key old new) ∧
      ((∀ old, doc.find? front ≠ some (array old)) →
        ∀ new, after.find? front = some (array new) → Grown key [] new) := by
  intro after
  have hafter : after = doc.put keys value := setAt_map_key doc keys value
  rw [hafter]
  refine ⟨fun h => put?_eq_some h value, ?_⟩
  rintro front key rest rfl
  constructor
  · intro old hold
    obtain ⟨new, hnew⟩ := exists_find?_put hold
    refine ⟨new, hnew, ?_⟩
    rw [← itemsAt_of_find? hold]
    exact grown_put hnew
  · intro hnone new hnew
    have hempty : doc.itemsAt front = [] := by
      rw [itemsAt]
      split
      · exact absurd ‹_› (hnone _)
      · rfl
    rw [← hempty]
    exact grown_put hnew

/-- Two arrays are on the way: one stands there already, the other takes the place of a text. -/
theorem put?_eq_some_and_grown_behind_text :
    let doc := object [("a", array [bool true, text "x"])]
    let keys := [Key.name "a", .index 1, .index 2]
    let after := doc.setAt (keys.map .key) (text "v")
    doc.Measured keys ∧ doc.put? keys (text "v") = some after ∧
      after = object [("a", array [bool true, array [null, null, text "v"]])] ∧
      Grown (.index 1) [bool true, text "x"] [bool true, array [null, null, text "v"]] ∧
      Grown (.index 2) [] [null, null, text "v"] := by
  intro doc keys after
  have hafter : after = object [("a", array [bool true, array [null, null, text "v"]])] := rfl
  have hmeasured : doc.Measured keys := by
    intro front hfront
    simp only [keys, List.prefix_cons_iff, List.prefix_nil] at hfront
    rcases hfront with rfl | ⟨_, rfl, rfl | ⟨_, rfl, rfl | ⟨_, rfl, rfl⟩⟩⟩ <;> decide
  obtain ⟨hchecked, hgrown⟩ := put?_eq_some_and_grown doc (text "v") keys
  obtain ⟨new, hnew, hold⟩ := (hgrown [.name "a"] (.index 1) [.index 2] rfl).1 _ rfl
  cases hnew
  refine ⟨hmeasured, hchecked hmeasured, hafter, hold, ?_⟩
  exact (hgrown [.name "a", .index 1] (.index 2) [] rfl).2 (by
    intro old hold
    cases hold) _ rfl

end Document

end DocPath
