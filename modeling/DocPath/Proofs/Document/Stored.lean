import DocPath.Proofs.Document.Frame

/-! # What stands where

The values at the ends of routes. Reading, and asking for an entry, go on from a value on the way
as from a document of its own, and differ in the nulls alone. -/

namespace DocPath

namespace Document

/-! ## Places -/

/-- A value stands at the end of a route, which leads through names of objects and positions of
arrays. -/
inductive Stores : Document → List Key → Document → Prop where
  | here (doc : Document) : Stores doc [] doc
  | entry {entries : List (String × Document)} {child value : Document} {key : Key}
      {rest : List Key} : entries.lookup key.render = some child → Stores child rest value →
      Stores (object entries) (key :: rest) value
  | element {items : List Document} {child value : Document} {n : Nat} {rest : List Key} :
      items[n]? = some child → Stores child rest value →
      Stores (array items) (.index n :: rest) value

variable {doc value : Document} {keys rest : List Key}

theorem stores_nil_iff : doc.Stores [] value ↔ doc = value := by
  constructor
  · intro h
    cases h
    rfl
  · rintro rfl
    exact .here doc

theorem stores_cons_iff {key : Key} :
    doc.Stores (key :: rest) value ↔
      ∃ child, doc.child? key = some child ∧ child.Stores rest value := by
  constructor
  · intro h
    cases h with
    | entry hc h => exact ⟨_, hc, h⟩
    | element hc h => exact ⟨_, hc, h⟩
  · rintro ⟨child, hc, h⟩
    rcases takes_cases (takes_of_child?_eq_some hc) with ⟨entries, rfl⟩ | ⟨items, n, rfl, rfl, -⟩
    · exact .entry hc h
    · exact .element hc h

theorem find?_eq_some_iff : doc.find? keys = some value ↔ doc.Stores keys value := by
  induction keys generalizing doc with
  | nil => rw [find?, Option.some.injEq, stores_nil_iff]
  | cons key rest ih =>
      rw [find?, Option.bind_eq_some_iff, stores_cons_iff]
      simp only [ih]

theorem get?_eq_some_iff :
    doc.get? keys = some value ↔ doc.Stores keys value ∧ value.isNull = false := by
  rw [get?, Option.filter_eq_some_iff, find?_eq_some_iff, Bool.not_eq_true']

/-! ## Entries -/

theorem isNull_eq_true_iff : doc.isNull = true ↔ doc = null := by
  cases doc <;> simp [isNull]

theorem holds_null (keys : List Key) : null.holds keys = false := by
  rcases keys with _ | ⟨key, _ | ⟨next, rest⟩⟩ <;> rfl

theorem holds_cons (doc : Document) (key : Key) (h : rest ≠ []) :
    doc.holds (key :: rest) = (doc.child? key).any fun child => child.holds rest := by
  obtain ⟨next, rest, rfl⟩ := List.exists_cons_of_ne_nil h
  rfl

theorem holds_iff_exists_stores (h : keys ≠ []) :
    doc.holds keys = true ↔ ∃ value, doc.Stores keys value := by
  induction keys generalizing doc with
  | nil => exact absurd rfl h
  | cons key rest ih =>
      by_cases hrest : rest = []
      · subst hrest
        simp only [stores_cons_iff, stores_nil_iff]
        rw [holds, Option.isSome_iff_exists]
        simp
      · simp only [holds_cons doc key hrest, Option.any_eq_true, ih hrest, stores_cons_iff]
        constructor
        · rintro ⟨child, hc, value, h⟩
          exact ⟨value, child, hc, h⟩
        · rintro ⟨value, child, hc, h⟩
          exact ⟨child, hc, value, h⟩

/-- What can be read is an entry. -/
theorem holds_of_get?_eq_some (hne : keys ≠ []) (h : doc.get? keys = some value) :
    doc.holds keys = true :=
  (holds_iff_exists_stores hne).mpr ⟨value, (get?_eq_some_iff.mp h).1⟩

/-- The entries that cannot be read are nulls. -/
theorem holds_and_get?_eq_none_iff (hne : keys ≠ []) :
    doc.holds keys = true ∧ doc.get? keys = none ↔ doc.Stores keys null := by
  rw [holds_iff_exists_stores hne]
  constructor
  · rintro ⟨⟨value, hstores⟩, hnone⟩
    cases hnull : value.isNull with
    | true => rwa [isNull_eq_true_iff.mp hnull] at hstores
    | false =>
        rw [get?_eq_some_iff.mpr ⟨hstores, hnull⟩] at hnone
        cases hnone
  · intro hstores
    refine ⟨⟨null, hstores⟩, ?_⟩
    rw [get?, find?_eq_some_iff.mpr hstores]
    rfl

/-! ## Routes in two parts -/

theorem get?_append (doc : Document) (p q : List Key) :
    doc.get? (p ++ q) = (doc.get? p).bind fun value => value.get? q := by
  induction p generalizing doc with
  | nil =>
      cases hnull : doc.isNull with
      | true =>
          obtain rfl := isNull_eq_true_iff.mp hnull
          rw [List.nil_append, get?_null, get?_null, Option.bind_none]
      | false => rw [get?_nil_of_not_isNull hnull, Option.bind_some, List.nil_append]
  | cons key p ih =>
      rw [List.cons_append, get?_cons, get?_cons, Option.bind_assoc]
      simp only [ih]

/-- Nothing stands below a null, so it makes no difference that it reads as nothing. -/
theorem holds_append (doc : Document) (p : List Key) {q : List Key} (hq : q ≠ []) :
    doc.holds (p ++ q) = (doc.get? p).any fun value => value.holds q := by
  induction p generalizing doc with
  | nil =>
      cases hnull : doc.isNull with
      | true =>
          obtain rfl := isNull_eq_true_iff.mp hnull
          rw [List.nil_append, holds_null, get?_null, Option.any_none]
      | false => rw [get?_nil_of_not_isNull hnull, Option.any_some, List.nil_append]
  | cons key p ih =>
      rw [List.cons_append, holds_cons doc key (List.append_ne_nil_of_right_ne_nil p hq), get?_cons]
      cases doc.child? key with
      | none => rfl
      | some child => exact ih child

/-! ## Along segments -/

theorem existsAt_map_key (doc : Document) (keys : List Key) (start : Nat) :
    doc.existsAt (keys.map .key) start = doc.holds (keys.drop start) := by
  rw [existsAt, ← List.map_drop, route_map_key]

/-- A route in two parts is read, and has an entry at its end, as its second part from the value at
the end of the first. What can be read is an entry, and the only other entries are nulls. -/
theorem getAt_append_and_existsAt_append (doc : Document) (p q : List Key) :
    let path (keys : List Key) := keys.map Segment.key
    (doc.getAt (path (p ++ q)) = (doc.getAt (path p)).bind fun value => value.getAt (path q)) ∧
    (q ≠ [] → doc.existsAt (path (p ++ q)) 0 =
      (doc.getAt (path p)).any fun value => value.existsAt (path (p ++ q)) p.length) ∧
    (p ≠ [] → ((doc.getAt (path p)).isSome = true → doc.existsAt (path p) 0 = true) ∧
      (doc.existsAt (path p) 0 = true ∧ doc.getAt (path p) = none ↔ doc.Stores p null)) := by
  intro path
  simp only [path, getAt_map_key, existsAt_map_key, List.drop_zero, List.drop_left]
  refine ⟨get?_append doc p q, holds_append doc p, ?_⟩
  intro hp
  refine ⟨?_, holds_and_get?_eq_none_iff hp⟩
  intro hread
  obtain ⟨value, hvalue⟩ := Option.isSome_iff_exists.mp hread
  exact holds_of_get?_eq_some hp hvalue

/-- The element can be read, and the null in it is an entry that cannot. -/
theorem existsAt_append_of_null_in_element :
    let element := object [("b", null)]
    let doc := object [("a", array [text "x", element])]
    let p := [Key.name "a", .index 1]
    let q := [Key.name "b"]
    p ≠ [] ∧ q ≠ [] ∧
      (doc.getAt (p.map .key)).isSome = true ∧ doc.existsAt (p.map .key) 0 = true ∧
      doc.existsAt ((p ++ q).map .key) 0 = element.existsAt ((p ++ q).map .key) 2 ∧
      doc.existsAt ((p ++ q).map .key) 0 = true ∧ doc.getAt ((p ++ q).map .key) = none := by
  intro element doc p q
  have hp : p ≠ [] := List.cons_ne_nil _ _
  have hq : q ≠ [] := List.cons_ne_nil _ _
  have hread : (doc.getAt (p.map .key)).isSome = true := rfl
  have hnull : doc.Stores (p ++ q) null := .entry rfl (.element rfl (.entry rfl (.here null)))
  refine ⟨hp, hq, hread, ?_, ?_, ?_⟩
  · exact ((getAt_append_and_existsAt_append doc p q).2.2 hp).1 hread
  · exact (getAt_append_and_existsAt_append doc p q).2.1 hq
  · have hpq : p ++ q ≠ [] := List.cons_ne_nil _ _
    exact ((getAt_append_and_existsAt_append doc (p ++ q) []).2.2 hpq).2.mpr hnull

end Document

end DocPath
