import DocPath.Destructor.Basic

/-! # The rules of templates

Every rule has a place on both sides, and the names in its places spell no indices. -/

namespace DocPath

/-- A name that spells no index. -/
def Key.Settled (k : Key) : Prop := ∀ text, k = .name text → Key.ofName text = k

theorem Key.settled_ofName (text : String) : (Key.ofName text).Settled := by
  intro text' h
  unfold Key.ofName at h ⊢
  cases hw : Numeral.word? text.toList with
  | some n => simp [hw] at h
  | none =>
      rw [hw] at h
      obtain rfl : text = text' := Key.name.inj h
      simp [hw]

theorem Key.settled_index (n : Nat) : (Key.index n).Settled := by
  intro text h
  cases h

/-- Settled keys with indices in range are told apart by what they render as. -/
theorem Key.eq_of_render_eq {k k' : Key} (hk : k.Settled) (hk' : k'.Settled)
    (hn : ∀ n, k = .index n ∨ k' = .index n → n < Numeral.wordLimit)
    (h : k.render = k'.render) : k = k' := by
  have hof : ∀ {k : Key}, k.Settled → (∀ n, k = .index n → n < Numeral.wordLimit) →
      Key.ofName k.render = k := by
    intro k hs hlt
    cases k with
    | name text => exact hs text rfl
    | index n => exact Key.ofName_render_index (hlt n rfl)
  rw [← hof hk fun n hn' => hn n (Or.inl hn'), h, hof hk' fun n hn' => hn n (Or.inr hn')]

/-- A rule that was made below `key` on the flat side. -/
structure Rule.Grown (key : List Key) (rule : Rule) : Prop where
  key_prefix : key <+: rule.key
  key_ne_nil : rule.key ≠ []
  path_ne_nil : rule.path ≠ []
  key_settled : ∀ k ∈ rule.key, k.Settled
  path_settled : ∀ k ∈ rule.path, k.Settled

theorem settled_append_ofName {keys : List Key} (h : ∀ k ∈ keys, k.Settled) (text : String) :
    ∀ k ∈ keys ++ [Key.ofName text], k.Settled := by
  intro k hk
  rcases List.mem_append.mp hk with hk | hk
  · exact h k hk
  · exact List.mem_singleton.mp hk ▸ Key.settled_ofName text

theorem settled_append_index {keys : List Key} (h : ∀ k ∈ keys, k.Settled) (n : Nat) :
    ∀ k ∈ keys ++ [Key.index n], k.Settled := by
  intro k hk
  rcases List.mem_append.mp hk with hk | hk
  · exact h k hk
  · exact List.mem_singleton.mp hk ▸ Key.settled_index n

mutual

theorem Template.grown_of_mem_rulesUnder {key path : List Key} (hk : ∀ k ∈ key, k.Settled)
    (hp : ∀ k ∈ path, k.Settled) (t : Template) :
    ∀ rule ∈ t.rulesUnder key path, rule.Grown key := by
  match t with
  | .object properties => exact grown_of_mem_propertyRules hk hp properties
  | .array elements => exact grown_of_mem_elementRules hk hp 0 elements

theorem grown_of_mem_propertyRules {key path : List Key} (hk : ∀ k ∈ key, k.Settled)
    (hp : ∀ k ∈ path, k.Settled) (properties : List Property) :
    ∀ rule ∈ propertyRules key path properties, rule.Grown key := by
  match properties with
  | [] => simp [propertyRules]
  | property :: rest =>
      intro rule hr
      rcases List.mem_append.mp hr with hr | hr
      · exact property.grown_of_mem_rulesUnder hk hp rule hr
      · exact grown_of_mem_propertyRules hk hp rest rule hr

theorem Property.grown_of_mem_rulesUnder {key path : List Key} (hk : ∀ k ∈ key, k.Settled)
    (hp : ∀ k ∈ path, k.Settled) (property : Property) :
    ∀ rule ∈ property.rulesUnder key path, rule.Grown key := by
  match property with
  | .plain name =>
      intro rule hr
      rw [List.mem_singleton.mp hr]
      exact ⟨List.prefix_append _ _, by simp, by simp, settled_append_ofName hk name,
        settled_append_ofName hp name⟩
  | .bound name slot =>
      exact slot.grown_of_mem_boundRules hk (settled_append_ofName hp name) (by simp)

theorem Slot.grown_of_mem_boundRules {key path : List Key} (hk : ∀ k ∈ key, k.Settled)
    (hp : ∀ k ∈ path, k.Settled) (hne : path ≠ []) (slot : Slot) :
    ∀ rule ∈ slot.boundRules key path, rule.Grown key := by
  match slot with
  | .name name =>
      intro rule hr
      rw [List.mem_singleton.mp hr]
      exact ⟨List.prefix_append _ _, by simp, hne, settled_append_ofName hk name, hp⟩
  | .nested template => exact template.grown_of_mem_rulesUnder hk hp

theorem grown_of_mem_elementRules {key path : List Key} (hk : ∀ k ∈ key, k.Settled)
    (hp : ∀ k ∈ path, k.Settled) (position : Nat) (elements : List Slot) :
    ∀ rule ∈ elementRules key path position elements, rule.Grown key := by
  match elements with
  | [] => simp [elementRules]
  | slot :: rest =>
      intro rule hr
      rcases List.mem_append.mp hr with hr | hr
      · have h := slot.grown_of_mem_elementRules (settled_append_index hk position) hp (by simp)
          rule hr
        exact { h with key_prefix := (List.prefix_append key _).trans h.key_prefix }
      · exact grown_of_mem_elementRules hk hp (position + 1) rest rule hr

theorem Slot.grown_of_mem_elementRules {key path : List Key} (hk : ∀ k ∈ key, k.Settled)
    (hp : ∀ k ∈ path, k.Settled) (hne : key ≠ []) (slot : Slot) :
    ∀ rule ∈ slot.elementRules key path, rule.Grown key := by
  match slot with
  | .name name =>
      intro rule hr
      rw [List.mem_singleton.mp hr]
      exact ⟨List.prefix_refl _, hne, by simp, hk, settled_append_ofName hp name⟩
  | .nested template => exact template.grown_of_mem_rulesUnder hk hp

end

theorem Destructor.grown_of_mem_rules {d : Destructor} {rule : Rule} (h : rule ∈ d.rules) :
    rule.Grown [] :=
  d.template.grown_of_mem_rulesUnder (List.forall_mem_nil _) (List.forall_mem_nil _) rule h

/-- The flat side of an array template is an array. -/
theorem exists_index_of_mem_elementRules {position : Nat} {elements : List Slot} {rule : Rule}
    (h : rule ∈ elementRules [] [] position elements) : ∃ n rest, rule.key = .index n :: rest := by
  induction elements generalizing position with
  | nil => cases h
  | cons slot elements ih =>
      rcases List.mem_append.mp h with h | h
      · have hg := slot.grown_of_mem_elementRules
          (settled_append_index (List.forall_mem_nil _) position) (List.forall_mem_nil _)
          (by simp) rule h
        obtain ⟨rest, hrest⟩ := hg.key_prefix
        exact ⟨position, rest, hrest.symm⟩
      · exact ih h

end DocPath
