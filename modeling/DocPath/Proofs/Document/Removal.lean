import DocPath.Proofs.Document.Prune
import DocPath.Proofs.Document.Stored

/-! # Removing one place

Removing along a route changes a document just where an entry stands at the end of the route, and
takes out that entry alone. -/

namespace DocPath

namespace Document

variable {doc child result : Document} {key : Key} {keys rest : List Key}

/-! ## What changes -/

theorem unassign_of_child?_eq_none (h : doc.child? key = none) : doc.unassign key = doc := by
  cases doc with
  | object entries => exact congrArg object (dropEntry_of_notMem (lookup_eq_none_iff_notMem.mp h))
  | array items =>
      cases key with
      | name s => rfl
      | index n =>
          have hlength : items.length ≤ n := List.getElem?_eq_none_iff.mp h
          exact congrArg array (List.eraseIdx_of_length_le hlength)
  | null | bool _ | number _ | text _ => rfl

theorem unassign_ne_self_iff : doc.unassign key ≠ doc ↔ (doc.child? key).isSome = true := by
  cases hc : doc.child? key with
  | none => simp [unassign_of_child?_eq_none hc]
  | some child =>
      refine iff_of_true ?_ rfl
      intro hsame
      rcases takes_cases (takes_of_child?_eq_some hc) with ⟨entries, rfl⟩ | ⟨items, n, rfl, rfl, -⟩
      · rw [← hsame] at hc
        simp [unassign, child?] at hc
      · have hlt : n < items.length := (List.getElem?_eq_some_iff.mp hc).1
        have hlength := congrArg List.length (Document.array.inj hsame)
        rw [List.length_eraseIdx_of_lt hlt] at hlength
        omega

/-- A child keeps its place, so putting another one there changes the document. -/
theorem assign_eq_self_iff (hc : doc.child? key = some child) (value : Document) :
    doc.assign key value = doc ↔ value = child := by
  constructor
  · intro hsame
    have hself := child?_assign_self (takes_of_child?_eq_some hc) value
    rw [hsame, hc] at hself
    exact (Option.some.inj hself).symm
  · rintro rfl
    exact assign_of_child? hc

theorem remove_cons (doc : Document) (key : Key) (hrest : rest ≠ []) :
    doc.remove (key :: rest) =
      match doc.child? key with
      | some child => doc.assign key (child.remove rest)
      | none => doc := by
  obtain ⟨next, rest, rfl⟩ := List.exists_cons_of_ne_nil hrest
  rfl

theorem remove_ne_self_iff : doc.remove keys ≠ doc ↔ doc.holds keys = true := by
  induction keys generalizing doc with
  | nil => exact iff_of_false (fun h => h rfl) Bool.false_ne_true
  | cons key rest ih =>
      by_cases hrest : rest = []
      · subst hrest
        exact unassign_ne_self_iff
      · rw [remove_cons doc key hrest, holds_cons doc key hrest]
        cases hc : doc.child? key with
        | none => exact iff_of_false (fun h => h rfl) Bool.false_ne_true
        | some child =>
            rw [Option.any_some, ← ih]
            exact not_congr (assign_eq_self_iff hc _)

/-! ## What is taken out -/

/-- A document without the entry or the element at the end of a route, and otherwise the same. -/
inductive Loses : Document → List Key → Document → Prop where
  | entry {before after : List (String × Document)} {key : Key} {value : Document} :
      Loses (object (before ++ (key.render, value) :: after)) [key] (object (before ++ after))
  | element {before after : List Document} {item : Document} :
      Loses (array (before ++ item :: after)) [.index before.length] (array (before ++ after))
  | inEntry {before after : List (String × Document)} {key : Key} {child result : Document}
      {rest : List Key} : Loses child rest result →
      Loses (object (before ++ (key.render, child) :: after)) (key :: rest)
        (object (before ++ (key.render, result) :: after))
  | inElement {before after : List Document} {child result : Document} {rest : List Key} :
      Loses child rest result →
      Loses (array (before ++ child :: after)) (.index before.length :: rest)
        (array (before ++ result :: after))

theorem Loses.ne_nil (h : doc.Loses keys result) : keys ≠ [] := by
  cases h <;> exact List.cons_ne_nil _ _

theorem child?_array_append (before after : List Document) (child : Document) :
    (array (before ++ child :: after)).child? (.index before.length) = some child := by
  simp [child?]

/-- A child stands between the others. -/
theorem exists_append_of_child? (h : doc.child? key = some child) :
    (∃ before after, doc = object (before ++ (key.render, child) :: after)) ∨
      ∃ before after, doc = array (before ++ child :: after) ∧ key = .index before.length := by
  rcases takes_cases (takes_of_child?_eq_some h) with ⟨entries, rfl⟩ | ⟨items, n, rfl, rfl, -⟩
  · obtain ⟨before, after, rfl, -⟩ := List.lookup_eq_some_iff.mp h
    exact Or.inl ⟨before, after, rfl⟩
  · obtain ⟨hlt, rfl⟩ := List.getElem?_eq_some_iff.mp h
    refine Or.inr ⟨items.take n, items.drop (n + 1), ?_, ?_⟩
    · simp
    · simp [Nat.le_of_lt hlt]

theorem exists_loses_of_holds (h : doc.holds keys = true) : ∃ result, doc.Loses keys result := by
  induction keys generalizing doc with
  | nil => cases h
  | cons key rest ih =>
      by_cases hrest : rest = []
      · subst hrest
        obtain ⟨child, hc⟩ := Option.isSome_iff_exists.mp h
        rcases exists_append_of_child? hc with ⟨before, after, rfl⟩ | ⟨before, after, rfl, rfl⟩
        · exact ⟨_, .entry⟩
        · exact ⟨_, .element⟩
      · rw [holds_cons doc key hrest, Option.any_eq_true] at h
        obtain ⟨child, hc, hchild⟩ := h
        obtain ⟨result, hresult⟩ := ih hchild
        rcases exists_append_of_child? hc with ⟨before, after, rfl⟩ | ⟨before, after, rfl, rfl⟩
        · exact ⟨_, .inEntry hresult⟩
        · exact ⟨_, .inElement hresult⟩

/-- What a document loses along a route stood there, and is what is removed along it. -/
theorem Loses.holds_and_remove_eq (hdoc : doc.Distinct) (h : doc.Loses keys result) :
    doc.holds keys = true ∧ doc.remove keys = result := by
  induction h with
  | @entry before after key value =>
      obtain ⟨hb, ha⟩ := notMem_of_nodup_append_cons (distinct_object_iff.mp hdoc).1
      constructor
      · simp [holds, child?, lookup_append_cons hb]
      · exact congrArg object (dropEntry_append_cons hb ha value)
  | @element before after item =>
      constructor
      · simp [holds, child?_array_append]
      · exact remove_array_append before after item []
  | @inEntry before after key child result rest hinner ih =>
      have hb := (notMem_of_nodup_append_cons (distinct_object_iff.mp hdoc).1).1
      have hc : (object (before ++ (key.render, child) :: after)).child? key = some child :=
        lookup_append_cons hb child
      obtain ⟨hholds, hremove⟩ := ih (hdoc.child? hc)
      constructor
      · rw [holds_cons _ key hinner.ne_nil, hc, Option.any_some, hholds]
      · rw [remove_cons _ key hinner.ne_nil, hc]
        simp only [hremove]
        exact congrArg object (putEntry_append_cons hb child result)
  | @inElement before after child result rest hinner ih =>
      have hc := child?_array_append before after child
      obtain ⟨hholds, hremove⟩ := ih (hdoc.child? hc)
      constructor
      · rw [holds_cons _ _ hinner.ne_nil, hc, Option.any_some, hholds]
      · rw [remove_array_append, if_neg hinner.ne_nil, hremove]
        rfl

theorem loses_iff (hdoc : doc.Distinct) :
    doc.Loses keys result ↔ doc.holds keys = true ∧ doc.remove keys = result := by
  refine ⟨Loses.holds_and_remove_eq hdoc, ?_⟩
  rintro ⟨hholds, rfl⟩
  obtain ⟨result, hresult⟩ := exists_loses_of_holds hholds
  rwa [(hresult.holds_and_remove_eq hdoc).2]

/-! ## Along segments -/

theorem deleteAt_map_key (doc : Document) (keys : List Key) :
    doc.deleteAt (keys.map .key) = doc.remove keys := by
  rw [deleteAt, route_map_key]

/-- A removal changes a document if and only if there is an entry at the end of the route. The
result is then the document without this entry: the entries beside it keep their order, elements
behind it move up, and everything outside its container is the same. -/
theorem deleteAt_ne_iff_and_loses_iff (doc : Document) (key : Key) (rest : List Key) :
    let path := (key :: rest).map Segment.key
    (doc.deleteAt path ≠ doc ↔ doc.existsAt path 0 = true) ∧
      (doc.Distinct → ∀ result, doc.Loses (key :: rest) result ↔
        doc.existsAt path 0 = true ∧ doc.deleteAt path = result) := by
  intro path
  simp only [path, deleteAt_map_key, existsAt_map_key, List.drop_zero]
  exact ⟨remove_ne_self_iff, fun hdoc _ => loses_iff hdoc⟩

/-- A null is taken out from between two texts, and the second of them moves up. -/
theorem deleteAt_null_between_elements :
    let doc := object [("k", null), ("a", array [text "x", null, text "y"]), ("l", text "z")]
    let result := object [("k", null), ("a", array [text "x", text "y"]), ("l", text "z")]
    let path := [Segment.key (.name "a"), .key (.index 1)]
    doc.Distinct ∧ doc.Loses [.name "a", .index 1] result ∧ doc.existsAt path 0 = true ∧
      doc.deleteAt path = result ∧ doc.deleteAt path ≠ doc := by
  intro doc result path
  have hdoc : doc.Distinct := by simp [doc]
  have hloses : doc.Loses [.name "a", .index 1] result :=
    @Loses.inEntry [("k", null)] [("l", text "z")] (.name "a") _ _ _
      (@Loses.element [text "x"] [text "y"] null)
  obtain ⟨hchange, hremoved⟩ := deleteAt_ne_iff_and_loses_iff doc (.name "a") [.index 1]
  obtain ⟨hexists, hdelete⟩ := (hremoved hdoc result).mp hloses
  exact ⟨hdoc, hloses, hexists, hdelete, hchange.mpr hexists⟩

end Document

end DocPath
