import DocPath.Proofs.Document.Dropped
import DocPath.Proofs.Document.Stored

/-! # Writing null where nothing stands

Null written along a route at whose end nothing can be read leaves the document as it is, unless
the route goes on behind a scalar: that one gives way to an empty container. -/

namespace DocPath

namespace Document

variable {doc child : Document} {key : Key} {keys : List Key}

/-! ## Routes behind scalars -/

/-- A value that is no container can be read at the end of the route. -/
def ScalarAt (doc : Document) (keys : List Key) : Prop :=
  ∃ value, doc.get? keys = some value ∧ value.isContainer = false

/-- The route goes on behind a scalar. -/
def Overruns (doc : Document) (keys : List Key) : Prop :=
  ∃ before after, keys = before ++ after ∧ before ≠ [] ∧ after ≠ [] ∧ doc.ScalarAt before

theorem scalarAt_singleton_iff :
    doc.ScalarAt [key] ↔ ∃ child, doc.child? key = some child ∧ child.isNull = false ∧
      child.isContainer = false := by
  simp only [ScalarAt, get?_eq_some_iff, stores_cons_iff, stores_nil_iff, exists_eq_right,
    and_assoc]

theorem ScalarAt.vacant (h : doc.ScalarAt keys) : doc.Vacant keys := by
  obtain ⟨value, hvalue, hscalar⟩ := h
  intro old hold
  rw [hvalue] at hold
  rwa [← Option.some.inj hold]

/-- A route leads through containers alone. -/
theorem exists_child?_of_get?_cons_cons {next : Key} {rest : List Key} {value : Document}
    (h : doc.get? (key :: next :: rest) = some value) :
    ∃ child, doc.child? key = some child ∧ child.isContainer = true ∧
      child.get? (next :: rest) = some value := by
  rw [get?_cons] at h
  obtain ⟨child, hc, hread⟩ := Option.bind_eq_some_iff.mp h
  exact ⟨child, hc, isContainer_of_get?_cons hread, hread⟩

theorem Overruns.cons (hc : doc.child? key = some child) (h : child.Overruns keys) :
    doc.Overruns (key :: keys) := by
  obtain ⟨before, after, rfl, -, ha, value, hvalue, hscalar⟩ := h
  refine ⟨key :: before, after, rfl, List.cons_ne_nil _ _, ha, value, ?_, hscalar⟩
  rw [get?_cons, hc, Option.bind_some, hvalue]

/-! ## One step -/

theorem put_null_cons_of_lacks (h : doc.lacks key = true) (rest : List Key) :
    doc.put (key :: rest) null = doc := by
  rw [put_cons, h]
  rfl

theorem put_null_cons_cons_of_child? (hc : doc.child? key = some child)
    (hnull : child.isNull = false) (next : Key) (rest : List Key) :
    doc.put (key :: next :: rest) null =
      doc.assign key ((doc.containerAt key next.isIndex).put (next :: rest) null) := by
  rw [put_cons, lacks_of_child? hc, hnull, Bool.and_false, if_neg Bool.false_ne_true]

theorem lacks_fresh (indexed : Bool) (key : Key) :
    (containerAt.fresh indexed).lacks key = true := by
  rw [lacks, child?_fresh]

theorem exists_child?_of_not_lacks (h : doc.lacks key = false) :
    ∃ child, doc.child? key = some child ∧ child.isNull = false := by
  cases hc : doc.child? key with
  | none => simp [lacks, hc] at h
  | some child => exact ⟨child, rfl, lacks_of_child? hc ▸ h⟩

/-! ## Whole routes -/

/-- The write goes on inside containers that are there already, until it finds nothing to clear. -/
theorem put_null_eq_self (hread : doc.get? keys = none) (h : ¬ doc.Overruns keys) :
    doc.put keys null = doc := by
  induction keys generalizing doc with
  | nil => rfl
  | cons key rest ih =>
      cases hl : doc.lacks key with
      | true => exact put_null_cons_of_lacks hl rest
      | false =>
          obtain ⟨child, hc, hnull⟩ := exists_child?_of_not_lacks hl
          rw [get?_cons, hc, Option.bind_some] at hread
          cases rest with
          | nil =>
              rw [get?_nil_of_not_isNull hnull] at hread
              cases hread
          | cons next rest =>
              cases hkind : child.isContainer with
              | true =>
                  rw [put_null_cons_cons_of_child? hc hnull, containerAt_of_child? hc hkind,
                    ih hread fun hover => h (hover.cons hc), assign_of_child? hc]
              | false =>
                  have hscalar := scalarAt_singleton_iff.mpr ⟨child, hc, hnull, hkind⟩
                  refine absurd ⟨[key], next :: rest, rfl, ?_, ?_, hscalar⟩ h
                  · exact List.cons_ne_nil _ _
                  · exact List.cons_ne_nil _ _

/-- The scalar has given way to a container when the null turns out to have nothing to clear. -/
theorem put_null_append_of_scalarAt {before : List Key} (hb : before ≠ [])
    (h : doc.ScalarAt before) (next : Key) (after : List Key) :
    doc.put (before ++ next :: after) null =
      doc.put before (containerAt.fresh next.isIndex) := by
  have hfresh : (containerAt.fresh next.isIndex).isNull = false :=
    isNull_of_isContainer (isContainer_fresh _)
  induction before generalizing doc with
  | nil => exact absurd rfl hb
  | cons key before ih =>
      cases before with
      | nil =>
          obtain ⟨child, hc, hnull, -⟩ := scalarAt_singleton_iff.mp h
          rw [List.singleton_append, put_null_cons_cons_of_child? hc hnull,
            containerAt_of_vacant h.vacant, put_null_cons_of_lacks (lacks_fresh _ _),
            put_singleton hfresh]
      | cons other before =>
          obtain ⟨value, hvalue, hscalar⟩ := h
          obtain ⟨child, hc, hcontainer, hread⟩ := exists_child?_of_get?_cons_cons hvalue
          rw [List.cons_append, List.cons_append,
            put_null_cons_cons_of_child? hc (isNull_of_isContainer hcontainer),
            put_cons_cons hfresh, containerAt_of_child? hc hcontainer, ← List.cons_append,
            ih (List.cons_ne_nil _ _) ⟨value, hread, hscalar⟩]

theorem put_container_ne_of_scalarAt {container : Document}
    (hcontainer : container.isContainer = true) (hne : keys ≠ []) (h : doc.ScalarAt keys) :
    doc.put keys container ≠ doc := by
  intro hsame
  obtain ⟨value, hvalue, hscalar⟩ := h
  obtain ⟨key, rest, rfl⟩ := List.exists_cons_of_ne_nil hne
  have hread := get?_put (isNull_of_isContainer hcontainer) doc key rest
  rw [hsame, hvalue] at hread
  split at hread
  · rw [Option.some.inj hread, hcontainer] at hscalar
    cases hscalar
  · cases hread

/-! ## Along segments -/

/-- Where nothing can be read, a null that is written changes the document if and only if a scalar
stands on the way. The scalar is then replaced by an empty container. -/
theorem setAt_null_eq_iff_not_overruns (h : doc.getAt (keys.map .key) = none) :
    (doc.setAt (keys.map .key) null = doc ↔ ¬ doc.Overruns keys) ∧
      ∀ before next after, keys = before ++ next :: after → before ≠ [] → doc.ScalarAt before →
        doc.setAt (keys.map .key) null =
          doc.setAt (before.map .key) (if next.isIndex then array [] else object []) := by
  rw [getAt_map_key] at h
  simp only [setAt_map_key]
  constructor
  · constructor
    · rintro hsame ⟨before, after, rfl, hb, ha, hscalar⟩
      obtain ⟨next, after, rfl⟩ := List.exists_cons_of_ne_nil ha
      rw [put_null_append_of_scalarAt hb hscalar] at hsame
      exact put_container_ne_of_scalarAt (isContainer_fresh _) hb hscalar hsame
    · exact put_null_eq_self h
  · rintro before next after rfl hb hscalar
    exact put_null_append_of_scalarAt hb hscalar next after

/-- Behind a null nothing happens. Behind a truth value an array takes its place. -/
theorem setAt_null_behind_elements :
    let doc := object [("a", array [null, bool true])]
    let behindNull := [Key.name "a", .index 0, .name "b"]
    let behindScalar := [Key.name "a", .index 1, .index 2, .name "c"]
    (doc.getAt (behindNull.map .key) = none ∧ doc.setAt (behindNull.map .key) null = doc ∧
        ¬ doc.Overruns behindNull) ∧
      doc.getAt (behindScalar.map .key) = none ∧ doc.ScalarAt [.name "a", .index 1] ∧
        doc.setAt (behindScalar.map .key) null = object [("a", array [null, array []])] := by
  intro doc behindNull behindScalar
  have hnull : doc.getAt (behindNull.map .key) = none := rfl
  have hsame : doc.setAt (behindNull.map .key) null = doc := rfl
  have hnone : doc.getAt (behindScalar.map .key) = none := rfl
  have hscalar : doc.ScalarAt [.name "a", .index 1] := ⟨bool true, rfl, rfl⟩
  refine ⟨⟨hnull, hsame, (setAt_null_eq_iff_not_overruns hnull).1.mp hsame⟩, hnone, hscalar, ?_⟩
  exact (setAt_null_eq_iff_not_overruns hnone).2 [.name "a", .index 1] (.index 2) [.name "c"] rfl
    (List.cons_ne_nil _ _) hscalar

/-- Nothing can be read behind the truth value, and it is lost. -/
theorem setAt_null_loses_scalar :
    let doc := object [("a", bool true)]
    let path := [Segment.key (.name "a"), .key (.name "b")]
    doc.getAt path = none ∧ doc.setAt path null = object [("a", object [])] ∧
      doc.setAt path null ≠ doc := by
  intro doc path
  have hset : doc.setAt path null = object [("a", object [])] := rfl
  refine ⟨rfl, hset, ?_⟩
  rw [hset]
  simp [doc]

end Document

end DocPath
