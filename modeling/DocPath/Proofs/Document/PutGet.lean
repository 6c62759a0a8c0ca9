import DocPath.Destructor.Access
import DocPath.Proofs.Document.Child

/-! # Writing, then reading and writing again

A write is read back exactly on the routes that the document accepts, and the last of several
writes along one route is the one that counts. -/

namespace DocPath

namespace Document

/-! ## Routes that are accepted -/

/-- A document accepts a route when each container on the way takes its key. A child that is
missing or no container counts as an empty array in front of an index, and as an empty object
in front of a name. -/
def accepts (doc : Document) : List Key → Bool
  | [] => true
  | key :: rest =>
      decide (doc.Takes key) &&
        match doc.child? key, rest with
        | _, [] => true
        | some (array items), rest => (array items).accepts rest
        | some (object entries), rest => (object entries).accepts rest
        | _, .index n :: rest => (array []).accepts (.index n :: rest)
        | _, .name s :: rest => (object []).accepts (.name s :: rest)

theorem accepts_singleton (doc : Document) (key : Key) :
    doc.accepts [key] = decide (doc.Takes key) := by
  simp [accepts]

theorem isContainer_fresh (indexed : Bool) : (containerAt.fresh indexed).isContainer = true := by
  cases indexed <;> rfl

@[simp] theorem isContainer_containerAt (doc : Document) (key : Key) (indexed : Bool) :
    (doc.containerAt key indexed).isContainer = true := by
  unfold containerAt
  cases hc : doc.child? key with
  | none => exact isContainer_fresh indexed
  | some child =>
      by_cases h : child.isContainer = true
      · simp [h]
      · simp [h, isContainer_fresh]

theorem containerAt_of_child? {doc child : Document} {key : Key}
    (hc : doc.child? key = some child) (h : child.isContainer = true) (indexed : Bool) :
    doc.containerAt key indexed = child := by
  simp [containerAt, hc, h]

theorem accepts_cons_cons (doc : Document) (key next : Key) (rest : List Key) :
    doc.accepts (key :: next :: rest) =
      (decide (doc.Takes key) &&
        (doc.containerAt key next.isIndex).accepts (next :: rest)) := by
  rw [accepts.eq_def]
  apply congrArg (decide (doc.Takes key) && ·)
  unfold containerAt containerAt.fresh
  cases hc : doc.child? key with
  | none => cases next <;> simp [Key.isIndex]
  | some child => cases child <;> cases next <;> simp [isContainer, Key.isIndex]

/-! ## Reading what was written -/

@[simp] theorem get?_cons (doc : Document) (key : Key) (rest : List Key) :
    doc.get? (key :: rest) = (doc.child? key).bind fun child => child.get? rest := by
  cases hc : doc.child? key <;> simp [get?, find?, hc]

theorem get?_nil_of_not_isNull {doc : Document} (h : doc.isNull = false) :
    doc.get? [] = some doc := by
  simp [get?, find?, h]

theorem get?_assign_cons (doc : Document) (key : Key) (rest : List Key) (value : Document) :
    (doc.assign key value).get? (key :: rest) =
      if doc.Takes key then value.get? rest else none := by
  by_cases h : doc.Takes key
  · simp [h, child?_assign_self]
  · simp [h, assign_of_not_takes, child?_eq_none_of_not_takes]

theorem put_singleton {value : Document} (hv : value.isNull = false) (doc : Document)
    (key : Key) : doc.put [key] value = doc.assign key value := by
  simp [put, hv]

theorem put_cons_cons {value : Document} (hv : value.isNull = false) (doc : Document)
    (key next : Key) (rest : List Key) :
    doc.put (key :: next :: rest) value =
      doc.assign key ((doc.containerAt key next.isIndex).put (next :: rest) value) := by
  simp [put, hv]

theorem get?_put {value : Document} (hv : value.isNull = false) (doc : Document) (key : Key)
    (rest : List Key) :
    (doc.put (key :: rest) value).get? (key :: rest) =
      if doc.accepts (key :: rest) then some value else none := by
  induction rest generalizing doc key with
  | nil =>
      rw [put_singleton hv, get?_assign_cons, get?_nil_of_not_isNull hv]
      simp only [accepts_singleton, decide_eq_true_eq]
  | cons next rest ih =>
      rw [put_cons_cons hv, get?_assign_cons, ih]
      by_cases h : doc.Takes key <;> simp [accepts_cons_cons, h]

/-! ## Writing twice -/

/-- A write either finds nothing to clear, or puts a child in place. -/
theorem put_cons (doc : Document) (key : Key) (rest : List Key) (value : Document) :
    doc.put (key :: rest) value =
      if value.isNull && doc.lacks key then doc
      else doc.assign key (match rest with
        | [] => value
        | next :: _ => (doc.containerAt key next.isIndex).put rest value) := by
  rw [put.eq_def]
  cases rest <;> rfl

theorem isContainer_put (doc : Document) (keys : List Key) (value : Document) :
    (doc.put keys value).isContainer = doc.isContainer := by
  cases keys with
  | nil => rfl
  | cons key rest =>
      rw [put_cons]
      split
      · rfl
      · rw [isContainer_assign]

theorem put_cons_of_not_takes {doc : Document} {key : Key} (h : ¬ doc.Takes key)
    (rest : List Key) (value : Document) : doc.put (key :: rest) value = doc := by
  rw [put_cons, assign_of_not_takes h, ite_self]

theorem lacks_of_child? {doc child : Document} {key : Key} (h : doc.child? key = some child) :
    doc.lacks key = child.isNull := by
  simp [lacks, h]

/-- Of two writes along one route the second alone counts, unless it clears what the first
one wrote. Inside a child that the first write left, the second goes on where the first went
on, so this is an induction along the route. -/
theorem put_put {first second : Document} (h : second.isNull = false ∨ first = second)
    (doc : Document) (keys : List Key) :
    (doc.put keys first).put keys second = doc.put keys second := by
  induction keys generalizing doc with
  | nil => rfl
  | cons key rest ih =>
      by_cases ht : doc.Takes key
      · by_cases hl : (first.isNull && doc.lacks key) = true
        · rw [put_cons doc key rest first, if_pos hl]
        · have hr : ¬ (second.isNull && doc.lacks key) = true := by
            rcases h with h | rfl
            · simp [h]
            · exact hl
          rw [put_cons doc key rest first, if_neg hl, put_cons doc key rest second, if_neg hr,
            put_cons, assign_assign]
          cases rest with
          | nil =>
              simp only
              by_cases hg : (second.isNull && (doc.assign key first).lacks key) = true
              · have hn : second.isNull = true := (Bool.and_eq_true_iff.mp hg).1
                rw [if_pos hg, h.resolve_left (by simp [hn])]
              · rw [if_neg hg]
          | cons next rest =>
              let child := (doc.containerAt key next.isIndex).put (next :: rest) first
              have hc : (doc.assign key child).child? key = some child :=
                child?_assign_self ht child
              have hcontainer : child.isContainer = true := by
                rw [isContainer_put, isContainer_containerAt]
              have hg : ¬ (second.isNull && (doc.assign key child).lacks key) = true := by
                simp [lacks_of_child? hc, isNull_of_isContainer hcontainer]
              rw [if_neg hg]
              simp only
              rw [containerAt_of_child? hc hcontainer, ih]
      · simp only [put_cons_of_not_takes ht]

/-! ## Along segments -/

theorem setAt_map_key (doc : Document) (keys : List Key) (value : Document) :
    doc.setAt (keys.map .key) value = doc.put keys value := by
  simp [setAt, route_map_key]

theorem getAt_map_key (doc : Document) (keys : List Key) :
    doc.getAt (keys.map .key) = doc.get? keys := by
  simp [getAt, route_map_key]

/-- What is written is read back from the routes that the document accepts, and from no
others. A later write along a route undoes an earlier one, and a repeated write does
nothing. -/
theorem getAt_setAt_and_setAt_setAt (doc : Document) (key : Key) (rest : List Key) :
    let path := (key :: rest).map Segment.key
    (∀ value, value.isNull = false →
      (doc.setAt path value).getAt path =
        if doc.accepts (key :: rest) then some value else none) ∧
    (∀ first second, second.isNull = false →
      (doc.setAt path first).setAt path second = doc.setAt path second) ∧
    ∀ value, (doc.setAt path value).setAt path value = doc.setAt path value := by
  intro path
  simp only [path, setAt_map_key, getAt_map_key]
  refine ⟨?_, ?_, ?_⟩
  · intro value hv
    exact get?_put hv doc key rest
  · intro first second hs
    exact put_put (Or.inl hs) doc (key :: rest)
  · intro value
    exact put_put (Or.inr rfl) doc (key :: rest)

/-- A truth value gives way to an array, whose new element stands behind two nulls, but not to
one with an element too far out. -/
theorem getAt_setAt_through_scalar :
    let doc := object [("a", bool true)]
    let near := [Key.name "a", .index 2].map Segment.key
    let far := [Key.name "a", .index 65536].map Segment.key
    (text "v").isNull = false ∧
      (doc.setAt near (text "v")).getAt near = some (text "v") ∧
      (doc.setAt far (text "v")).getAt far = none ∧
      (doc.setAt near null).setAt near (text "v") = doc.setAt near (text "v") := by
  intro doc near far
  have hv : (text "v").isNull = false := rfl
  refine ⟨hv, ?_, ?_, ?_⟩
  · exact ((getAt_setAt_and_setAt_setAt doc (.name "a") [.index 2]).1 _ hv).trans
      (if_pos (by decide))
  · exact ((getAt_setAt_and_setAt_setAt doc (.name "a") [.index 65536]).1 _ hv).trans
      (if_neg (by decide))
  · exact (getAt_setAt_and_setAt_setAt doc (.name "a") [.index 2]).2.1 null _ hv

end Document

end DocPath
