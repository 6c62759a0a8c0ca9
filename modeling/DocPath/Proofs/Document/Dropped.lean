import DocPath.Proofs.Document.Accepts

/-! # Writes that are dropped

A write that is not read back leaves the document as it was, unless it has put a container in
place on its way before an index behind it was refused. -/

namespace DocPath

namespace Document

/-! ## Writes that stop behind a container of their own -/

/-- No container stands at the end of the route: nothing does, or a scalar. -/
def Vacant (doc : Document) (keys : List Key) : Prop :=
  ∀ old, doc.get? keys = some old → old.isContainer = false

theorem vacant_singleton_iff {doc : Document} {key : Key} :
    doc.Vacant [key] ↔ ∀ child, doc.child? key = some child → child.isContainer = false := by
  simp only [Vacant, get?_cons]
  cases doc.child? key with
  | none => simp
  | some child => cases child <;> simp [get?, find?, isNull, isContainer]

theorem vacant_cons_cons_iff {doc : Document} {key next : Key} {rest : List Key}
    (indexed : Bool) :
    doc.Vacant (key :: next :: rest) ↔ (doc.containerAt key indexed).Vacant (next :: rest) := by
  simp only [Vacant, get?_containerAt_cons, get?_cons doc key]

theorem containerAt_of_vacant {doc : Document} {key : Key} (h : doc.Vacant [key])
    (indexed : Bool) : doc.containerAt key indexed = containerAt.fresh indexed := by
  unfold containerAt
  cases hc : doc.child? key with
  | none => rfl
  | some child => simp [vacant_singleton_iff.mp h child hc]

/-- Behind a vacant place an accepted route stays in reach. -/
theorem inReach_of_accepts_append {before after : List Key} (hb : before ≠ []) {doc : Document}
    (h : doc.accepts (before ++ after) = true) (hv : doc.Vacant before) : InReach after := by
  induction before generalizing doc with
  | nil => exact absurd rfl hb
  | cons key before ih =>
      cases before with
      | nil =>
          cases after with
          | nil => exact inReach_nil
          | cons next after =>
              rw [List.singleton_append, accepts_cons_cons, containerAt_of_vacant hv,
                Bool.and_eq_true, accepts_fresh_iff, fresh_takes_iff, ← inReach_cons] at h
              exact h.2
      | cons other before =>
          rw [List.cons_append, List.cons_append, accepts_cons_cons, Bool.and_eq_true] at h
          exact ih (List.cons_ne_nil _ _) h.2 ((vacant_cons_cons_iff _).mp hv)

/-- A write that goes on behind an accepted place leaves a container there. -/
theorem not_vacant_put_append {before after : List Key} (hb : before ≠ []) (ha : after ≠ [])
    {doc value : Document} (hv : value.isNull = false) (h : doc.accepts before = true) :
    ¬ (doc.put (before ++ after) value).Vacant before := by
  induction before generalizing doc with
  | nil => exact absurd rfl hb
  | cons key before ih =>
      cases before with
      | nil =>
          obtain ⟨next, after, rfl⟩ := List.exists_cons_of_ne_nil ha
          rw [accepts_singleton, decide_eq_true_eq] at h
          rw [List.singleton_append, put_cons_cons hv, vacant_singleton_iff]
          intro hvacant
          have hcontainer := hvacant _ (child?_assign_self h _)
          rw [isContainer_put, isContainer_containerAt] at hcontainer
          cases hcontainer
      | cons other before =>
          rw [accepts_cons_cons, Bool.and_eq_true, decide_eq_true_eq] at h
          rw [List.cons_append, List.cons_append, put_cons_cons hv,
            vacant_cons_cons_iff other.isIndex]
          rw [containerAt_of_child? (child?_assign_self h.1 _)
            (by rw [isContainer_put, isContainer_containerAt])]
          exact ih (List.cons_ne_nil _ _) h.2

/-- The write puts a container in a vacant place on its way, and an index behind it lies too far
out for the array that is made for it. -/
def Strands (doc : Document) (keys : List Key) : Prop :=
  ∃ before after, keys = before ++ after ∧ before ≠ [] ∧ doc.accepts before = true ∧
    doc.Vacant before ∧ ¬ InReach after

theorem Strands.cons {doc : Document} {key next : Key} {rest : List Key} (ht : doc.Takes key)
    (h : (doc.containerAt key next.isIndex).Strands (next :: rest)) :
    doc.Strands (key :: next :: rest) := by
  obtain ⟨before, after, heq, hb, ha, hv, hfar⟩ := h
  obtain ⟨first, before, rfl⟩ := List.exists_cons_of_ne_nil hb
  obtain ⟨rfl, rfl⟩ := List.cons_eq_cons.mp heq
  refine ⟨key :: next :: before, after, rfl, List.cons_ne_nil _ _, ?_, ?_, hfar⟩
  · simp [accepts_cons_cons, ht, ha]
  · exact (vacant_cons_cons_iff _).mpr hv

theorem Strands.not_accepts {doc : Document} {keys : List Key} (h : doc.Strands keys) :
    ¬ doc.accepts keys = true := by
  obtain ⟨before, after, rfl, hb, -, hv, hfar⟩ := h
  intro ha
  exact hfar (inReach_of_accepts_append hb ha hv)

theorem Strands.put_ne {doc value : Document} {keys : List Key} (h : doc.Strands keys)
    (hvalue : value.isNull = false) : doc.put keys value ≠ doc := by
  obtain ⟨before, after, rfl, hb, ha, hv, hfar⟩ := h
  have hne : after ≠ [] := by
    rintro rfl
    exact hfar inReach_nil
  intro hput
  have hcontainer := not_vacant_put_append hb hne hvalue ha
  rw [hput] at hcontainer
  exact hcontainer hv

/-- A refused write that has made no container on its way leaves everything as it is. -/
theorem put_eq_self_of_not_strands {doc value : Document} {keys : List Key}
    (ha : ¬ doc.accepts keys = true) (h : ¬ doc.Strands keys) : doc.put keys value = doc := by
  induction keys generalizing doc with
  | nil => rfl
  | cons key rest ih =>
      by_cases ht : doc.Takes key
      · cases rest with
        | nil => exact absurd (by simpa [accepts_singleton] using ht) ha
        | cons next rest =>
            have hinner : ¬ (doc.containerAt key next.isIndex).accepts (next :: rest) = true := by
              simpa [accepts_cons_cons, ht] using ha
            by_cases hv : doc.Vacant [key]
            · rw [containerAt_of_vacant hv, accepts_fresh_iff, fresh_takes_iff,
                ← inReach_cons] at hinner
              refine absurd ⟨[key], next :: rest, rfl, List.cons_ne_nil _ _, ?_, hv, hinner⟩ h
              simpa [accepts_singleton] using ht
            · obtain ⟨child, hc, hcontainer⟩ :
                  ∃ child, doc.child? key = some child ∧ child.isContainer = true := by
                simpa [vacant_singleton_iff] using hv
              have hat := containerAt_of_child? hc hcontainer next.isIndex
              have hput : child.put (next :: rest) value = child := by
                have hih := ih hinner fun hs => h (hs.cons ht)
                rwa [hat] at hih
              rw [put_cons]
              simp only [hat, hput, assign_of_child? hc, ite_self]
      · exact put_cons_of_not_takes ht rest value

/-- A write is read back or changes nothing, if and only if it does not stop behind a container
that it has made. -/
theorem getAt_setAt_or_setAt_eq_iff (doc : Document) (key : Key) (rest : List Key)
    {value : Document} (hv : value.isNull = false) :
    let path := (key :: rest).map Segment.key
    (doc.setAt path value).getAt path = some value ∨ doc.setAt path value = doc ↔
      ¬ doc.Strands (key :: rest) := by
  intro path
  simp only [path, setAt_map_key, getAt_map_key, get?_put hv]
  constructor
  · rintro (hread | hsame) hs
    · rw [if_neg hs.not_accepts] at hread
      cases hread
    · exact hs.put_ne hv hsame
  · intro h
    by_cases ha : doc.accepts (key :: rest) = true
    · exact Or.inl (if_pos ha)
    · exact Or.inr (put_eq_self_of_not_strands ha h)

/-- An array that is there already refuses the index, and is left as it is. -/
theorem setAt_far_index_eq_self :
    let doc := object [("a", array [bool true, null])]
    let keys := [Key.name "a", .index 65538, .name "b"]
    (text "v").isNull = false ∧ doc.setAt (keys.map .key) (text "v") = doc ∧
      ¬ doc.Strands keys := by
  intro doc keys
  have hv : (text "v").isNull = false := rfl
  have hsame : doc.setAt (keys.map .key) (text "v") = doc := rfl
  exact ⟨hv, hsame, (getAt_setAt_or_setAt_eq_iff doc _ _ hv).mp (Or.inr hsame)⟩

/-- The truth value has given way to an array when the index turns out to lie too far out. -/
theorem setAt_far_index_loses_scalar :
    let doc := object [("a", bool true)]
    let path := [Segment.key (.name "a"), .key (.index 65536)]
    doc.setAt path (text "v") = object [("a", array [])] ∧
      doc.setAt path (text "v") ≠ doc ∧ (doc.setAt path (text "v")).getAt path = none := by
  intro doc path
  have hset : doc.setAt path (text "v") = object [("a", array [])] := rfl
  refine ⟨hset, ?_, rfl⟩
  rw [hset]
  simp [doc]

end Document

end DocPath
