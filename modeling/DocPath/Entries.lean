/-! Entries: values under names, each in the place where its name first came up. -/

namespace DocPath

variable {α : Type}

/-- Entries with `key` set to `value`: in the place of the old entry, or behind all others. -/
def putEntry (key : String) (value : α) : List (String × α) → List (String × α)
  | [] => [(key, value)]
  | (k, v) :: rest => if k = key then (k, value) :: rest else (k, v) :: putEntry key value rest

/-- Entries without those for `key`. -/
def dropEntry (key : String) (entries : List (String × α)) : List (String × α) :=
  entries.filter fun e => e.1 != key

@[simp] theorem lookup_putEntry_self (key : String) (value : α) (entries : List (String × α)) :
    (putEntry key value entries).lookup key = some value := by
  induction entries with
  | nil => simp [putEntry]
  | cons e rest ih =>
    obtain ⟨k, v⟩ := e
    by_cases h : k = key
    · simp [putEntry, h]
    · have hk : (key == k) = false := by simp [Ne.symm h]
      simp [putEntry, h, List.lookup_cons, hk, ih]

theorem lookup_putEntry_of_ne {key other : String} (h : other ≠ key) (value : α)
    (entries : List (String × α)) :
    (putEntry key value entries).lookup other = entries.lookup other := by
  induction entries with
  | nil => simp [putEntry, List.lookup_cons, beq_eq_false_iff_ne.mpr h]
  | cons e rest ih =>
    obtain ⟨k, v⟩ := e
    by_cases hk : k = key
    · subst hk
      simp [putEntry, List.lookup_cons, beq_eq_false_iff_ne.mpr h]
    · by_cases ho : other = k
      · subst ho; simp [putEntry, hk]
      · simp [putEntry, hk, List.lookup_cons, beq_eq_false_iff_ne.mpr ho, ih]

theorem putEntry_putEntry (key : String) (first second : α) (entries : List (String × α)) :
    putEntry key second (putEntry key first entries) = putEntry key second entries := by
  induction entries with
  | nil => simp [putEntry]
  | cons e rest ih =>
    obtain ⟨k, v⟩ := e
    by_cases h : k = key
    · simp [putEntry, h]
    · simp [putEntry, h, ih]

theorem putEntry_of_lookup {key : String} {value : α} {entries : List (String × α)}
    (h : entries.lookup key = some value) : putEntry key value entries = entries := by
  induction entries with
  | nil => cases h
  | cons e rest ih =>
    obtain ⟨k, v⟩ := e
    by_cases hk : k = key
    · subst hk
      obtain rfl : v = value := by simpa using h
      simp [putEntry]
    · have hne : (key == k) = false := by simp [Ne.symm hk]
      rw [List.lookup_cons, hne] at h
      simp [putEntry, hk, ih h]

theorem putEntry_of_notMem {key : String} {entries : List (String × α)}
    (h : key ∉ entries.map Prod.fst) (value : α) :
    putEntry key value entries = entries ++ [(key, value)] := by
  induction entries with
  | nil => rfl
  | cons e rest ih =>
    obtain ⟨k, v⟩ := e
    simp only [List.map_cons, List.mem_cons, not_or] at h
    simp [putEntry, Ne.symm h.1, ih h.2]

/-- Names keep their order, and a new name comes behind all others. -/
theorem map_fst_prefix_putEntry (key : String) (value : α) (entries : List (String × α)) :
    entries.map Prod.fst <+: (putEntry key value entries).map Prod.fst := by
  induction entries with
  | nil => exact List.nil_prefix
  | cons e rest ih =>
    obtain ⟨k, v⟩ := e
    by_cases h : k = key
    · simp [putEntry, h]
    · simpa [putEntry, h] using ih

theorem eq_or_mem_of_mem_putEntry {key : String} {value : α} {entries : List (String × α)}
    {entry : String × α} (h : entry ∈ putEntry key value entries) :
    entry = (key, value) ∨ entry ∈ entries := by
  induction entries with
  | nil => exact Or.inl (List.mem_singleton.mp h)
  | cons e rest ih =>
    obtain ⟨k, v⟩ := e
    by_cases hk : k = key
    · subst hk
      simp only [putEntry, if_true, List.mem_cons] at h ⊢
      exact h.imp_right Or.inr
    · simp only [putEntry, hk, if_false, List.mem_cons] at h ⊢
      rcases h with h | h
      · exact Or.inr (Or.inl h)
      · exact (ih h).imp_right Or.inr

theorem nodup_map_fst_putEntry (key : String) (value : α) {entries : List (String × α)}
    (h : (entries.map Prod.fst).Nodup) : ((putEntry key value entries).map Prod.fst).Nodup := by
  induction entries with
  | nil => simp [putEntry]
  | cons e rest ih =>
    obtain ⟨k, v⟩ := e
    obtain ⟨hk, hrest⟩ := List.nodup_cons.mp h
    by_cases hkey : k = key
    · simp only [putEntry, hkey, if_true, List.map_cons, List.nodup_cons]
      exact ⟨hkey ▸ hk, hrest⟩
    · simp only [putEntry, hkey, if_false, List.map_cons, List.nodup_cons]
      refine ⟨?_, ih hrest⟩
      intro hmem
      obtain ⟨entry, hentry, hname⟩ := List.mem_map.mp hmem
      rcases eq_or_mem_of_mem_putEntry hentry with rfl | hentry
      · exact hkey hname.symm
      · exact hk (List.mem_map.mpr ⟨entry, hentry, hname⟩)

@[simp] theorem lookup_dropEntry_self (key : String) (entries : List (String × α)) :
    (dropEntry key entries).lookup key = none := by
  induction entries with
  | nil => rfl
  | cons e rest ih =>
    obtain ⟨k, v⟩ := e
    by_cases h : k = key
    · simpa [dropEntry, h] using ih
    · have hk : (key == k) = false := by simp [Ne.symm h]
      simpa [dropEntry, h, List.lookup_cons, hk] using ih

theorem lookup_dropEntry_of_ne {key other : String} (h : other ≠ key)
    (entries : List (String × α)) :
    (dropEntry key entries).lookup other = entries.lookup other := by
  induction entries with
  | nil => rfl
  | cons e rest ih =>
    obtain ⟨k, v⟩ := e
    by_cases hk : k = key
    · subst hk
      simpa [dropEntry, List.lookup_cons, beq_eq_false_iff_ne.mpr h] using ih
    · by_cases ho : other = k
      · subst ho; simp [dropEntry, hk]
      · simpa [dropEntry, hk, List.lookup_cons, beq_eq_false_iff_ne.mpr ho] using ih

/-! ## Entries around a name -/

section Around

variable {key : String} {before after : List (String × α)}

theorem notMem_of_nodup_append_cons {value : α}
    (h : ((before ++ (key, value) :: after).map Prod.fst).Nodup) :
    key ∉ before.map Prod.fst ∧ key ∉ after.map Prod.fst := by
  rw [List.map_append, List.map_cons, List.perm_middle.nodup_iff, List.nodup_cons,
    List.mem_append, not_or] at h
  exact h.1

theorem lookup_eq_none_iff_notMem {entries : List (String × α)} :
    entries.lookup key = none ↔ key ∉ entries.map Prod.fst := by
  simp only [List.lookup_eq_none_iff, bne_iff_ne, List.mem_map, not_exists, not_and, ne_comm]

theorem lookup_append_cons (h : key ∉ before.map Prod.fst) (value : α) :
    (before ++ (key, value) :: after).lookup key = some value := by
  rw [List.lookup_append, lookup_eq_none_iff_notMem.mpr h, List.lookup_cons_self, Option.none_or]

theorem putEntry_append_cons (h : key ∉ before.map Prod.fst) (old new : α) :
    putEntry key new (before ++ (key, old) :: after) = before ++ (key, new) :: after := by
  induction before with
  | nil => simp [putEntry]
  | cons entry before ih =>
      obtain ⟨k, v⟩ := entry
      simp only [List.map_cons, List.mem_cons, not_or] at h
      simp [putEntry, Ne.symm h.1, ih h.2]

theorem dropEntry_of_notMem {entries : List (String × α)} (h : key ∉ entries.map Prod.fst) :
    dropEntry key entries = entries := by
  refine List.filter_eq_self.mpr ?_
  intro entry hentry
  refine bne_iff_ne.mpr ?_
  rintro rfl
  exact h (List.mem_map_of_mem hentry)

theorem dropEntry_append_cons (hb : key ∉ before.map Prod.fst) (ha : key ∉ after.map Prod.fst)
    (value : α) : dropEntry key (before ++ (key, value) :: after) = before ++ after := by
  have hsplit : dropEntry key (before ++ (key, value) :: after) =
      dropEntry key before ++ dropEntry key after := by simp [dropEntry]
  rw [hsplit, dropEntry_of_notMem hb, dropEntry_of_notMem ha]

end Around

end DocPath
