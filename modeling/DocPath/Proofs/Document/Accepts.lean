import DocPath.Proofs.Document.Frame

/-! # Routes that stay accepted

Which routes lead into a fresh container, and that a write leaves a route accepted that parts with
its own. -/

namespace DocPath

/-! ## Routes side by side -/

/-- Behind every common beginning both routes go on with an index, or both with a name, so that
they ask for containers of one kind. -/
def Alike (p q : List Key) : Prop :=
  ∀ front key key', front ≠ [] → front ++ [key] <+: p → front ++ [key'] <+: q →
    key.isIndex = key'.isIndex

theorem alike_nil_left (q : List Key) : Alike [] q := by
  intro front key key' _ hp _
  simp at hp

theorem alike_nil_right (p : List Key) : Alike p [] := by
  intro front key key' _ _ hq
  simp at hq

theorem alike_cons_cons_iff {key key' : Key} {p q : List Key} :
    Alike (key :: p) (key' :: q) ↔
      (key = key' → (∀ a ∈ p.head?, ∀ b ∈ q.head?, a.isIndex = b.isIndex) ∧ Alike p q) := by
  constructor
  · rintro h rfl
    refine ⟨?_, ?_⟩
    · intro a ha b hb
      obtain ⟨p, rfl⟩ := List.head?_eq_some_iff.mp ha
      obtain ⟨q, rfl⟩ := List.head?_eq_some_iff.mp hb
      exact h [key] a b (List.cons_ne_nil _ _) (by simp) (by simp)
    · intro front a b _ hp hq
      exact h (key :: front) a b (List.cons_ne_nil _ _) (by simpa using hp) (by simpa using hq)
  · intro h front a b hne hp hq
    obtain ⟨first, front, rfl⟩ := List.exists_cons_of_ne_nil hne
    rw [List.cons_append, List.cons_prefix_cons] at hp hq
    obtain ⟨rfl, hp⟩ := hp
    obtain ⟨rfl, hq⟩ := hq
    obtain ⟨hhead, htail⟩ := h rfl
    cases front with
    | nil =>
        obtain ⟨p, rfl⟩ := hp
        obtain ⟨q, rfl⟩ := hq
        exact hhead a rfl b rfl
    | cons second front => exact htail (second :: front) a b (List.cons_ne_nil _ _) hp hq

instance decidableAlike : (p q : List Key) → Decidable (Alike p q)
  | [], q => isTrue (alike_nil_left q)
  | p, [] => isTrue (alike_nil_right p)
  | _ :: p, _ :: q =>
      have : Decidable (Alike p q) := decidableAlike p q
      decidable_of_iff _ alike_cons_cons_iff.symm

/-- No index on the route lies farther out than an empty array can be padded. -/
def InReach (keys : List Key) : Prop := ∀ n, .index n ∈ keys → n < Document.paddingLimit

@[simp] theorem inReach_nil : InReach [] := by simp [InReach]

theorem inReach_cons (key : Key) (rest : List Key) :
    InReach (key :: rest) ↔
      (∀ n, key = .index n → n < Document.paddingLimit) ∧ InReach rest := by
  simp only [InReach, List.mem_cons, or_imp, forall_and, eq_comm]

instance decidableInReach : (keys : List Key) → Decidable (InReach keys)
  | [] => isTrue inReach_nil
  | .name s :: rest =>
      have : Decidable (InReach rest) := decidableInReach rest
      decidable_of_iff (InReach rest) (by simp [inReach_cons])
  | .index n :: rest =>
      have : Decidable (InReach rest) := decidableInReach rest
      decidable_of_iff (n < Document.paddingLimit ∧ InReach rest) (by simp [inReach_cons])

/-- Routes that can be written to side by side: none begins another, where two go together they
ask for containers of one kind, and no index lies too far out. -/
structure Compatible (routes : List (List Key)) : Prop where
  parted : routes.Pairwise fun p q => ¬ Meets p q
  alike : ∀ p ∈ routes, ∀ q ∈ routes, Alike p q
  inReach : ∀ p ∈ routes, InReach p

theorem Compatible.tail {route : List Key} {routes : List (List Key)}
    (h : Compatible (route :: routes)) : Compatible routes where
  parted := (List.pairwise_cons.mp h.parted).2
  alike p hp q hq := h.alike p (List.mem_cons_of_mem _ hp) q (List.mem_cons_of_mem _ hq)
  inReach p hp := h.inReach p (List.mem_cons_of_mem _ hp)

namespace Document

/-! ## Routes into fresh containers -/

theorem reaches_nil_iff (n : Nat) : Reaches [] n ↔ n < paddingLimit := by
  simp only [Reaches, List.length_nil, Numeral.wordLimit, UInt64.size, paddingLimit]
  omega

@[simp] theorem child?_fresh (indexed : Bool) (key : Key) :
    (containerAt.fresh indexed).child? key = none := by
  cases indexed <;> cases key <;> simp [containerAt.fresh, child?]

@[simp] theorem containerAt_fresh (indexed : Bool) (key : Key) (again : Bool) :
    (containerAt.fresh indexed).containerAt key again = containerAt.fresh again := by
  simp [containerAt]

/-- The container that is made for a key takes it, unless it lies too far out. -/
theorem fresh_takes_iff (key : Key) :
    (containerAt.fresh key.isIndex).Takes key ↔ ∀ n, key = .index n → n < paddingLimit := by
  cases key with
  | name s => simp [containerAt.fresh, Key.isIndex, Takes]
  | index n => simpa [containerAt.fresh, Key.isIndex, Takes] using reaches_nil_iff n

theorem accepts_fresh_iff (indexed : Bool) (key : Key) (rest : List Key) :
    (containerAt.fresh indexed).accepts (key :: rest) = true ↔
      (containerAt.fresh indexed).Takes key ∧ InReach rest := by
  induction rest generalizing indexed key with
  | nil => simp [accepts_singleton]
  | cons next rest ih =>
      rw [accepts_cons_cons, containerAt_fresh, Bool.and_eq_true, decide_eq_true_eq, ih,
        fresh_takes_iff, inReach_cons]

/-! ## After a write elsewhere -/

theorem length_le_length_setItem (items : List Document) (n : Nat) (value : Document) :
    items.length ≤ (setItem items n value).length := by
  unfold setItem
  split
  · simp
  · split <;> simp

theorem takes_assign {doc : Document} {other : Key} (h : doc.Takes other) (key : Key)
    (value : Document) : (doc.assign key value).Takes other := by
  rcases takes_cases h with ⟨entries, rfl⟩ | ⟨items, m, rfl, rfl, hr⟩
  · trivial
  · cases key with
    | name s => exact h
    | index n =>
        have hlength := length_le_length_setItem items n value
        simp only [assign, Takes, Reaches] at hr ⊢
        omega

theorem containerAt_assign_of_render_ne {key other : Key} (h : other.render ≠ key.render)
    (doc value : Document) (indexed : Bool) :
    (doc.assign key value).containerAt other indexed = doc.containerAt other indexed := by
  by_cases ht : doc.Takes key
  · rcases takes_cases ht with ⟨entries, rfl⟩ | ⟨items, n, rfl, rfl, hr⟩
    · simp [containerAt, assign, child?, lookup_putEntry_of_ne h]
    · cases other with
      | name s => rfl
      | index m =>
          have hne : m ≠ n := fun heq => h (by rw [heq])
          simp only [containerAt, assign, child?]
          rcases getElem?_setItem_of_ne hne value with he | ⟨hnone, hnull⟩
          · rw [he]
          · simp [hnone, hnull, isContainer]
  · rw [assign_of_not_takes ht]

/-- A write leaves a route accepted that parts with its own, as long as both ask for containers
of one kind where they go together. -/
theorem accepts_put {p q : List Key} (hpq : ¬ Meets p q) (halike : Alike p q)
    (hsame : ∀ k ∈ p, ∀ k' ∈ q, k.render = k'.render → k = k') {doc value : Document}
    (h : doc.accepts q = true) : (doc.put p value).accepts q = true := by
  induction p generalizing doc q with
  | nil => exact absurd (meets_nil_left q) hpq
  | cons key p ih =>
      cases q with
      | nil => exact absurd (meets_nil_right _) hpq
      | cons other q =>
          rw [put_cons]
          split
          · exact h
          · by_cases ht : doc.Takes key
            · by_cases hk : key.render = other.render
              · obtain rfl := hsame key List.mem_cons_self other List.mem_cons_self hk
                have htail : ¬ Meets p q := fun hm =>
                  hpq ((meets_cons_cons _ _ _ _).mpr ⟨rfl, hm⟩)
                obtain ⟨hhead, halike⟩ := alike_cons_cons_iff.mp halike rfl
                cases p with
                | nil => exact absurd (meets_nil_left q) htail
                | cons next p =>
                    cases q with
                    | nil => exact absurd (meets_nil_right _) htail
                    | cons next' q =>
                        have hindex := hhead next rfl next' rfl
                        rw [accepts_cons_cons, Bool.and_eq_true, ← hindex] at h
                        rw [accepts_cons_cons, containerAt_of_child? (child?_assign_self ht _)
                          (by rw [isContainer_put, isContainer_containerAt])]
                        have hinner := ih htail halike
                          (fun k hk k' hk' => hsame k (List.mem_cons_of_mem _ hk) k'
                            (List.mem_cons_of_mem _ hk')) h.2
                        simp [takes_assign ht, hinner]
              · cases q with
                | nil =>
                    rw [accepts_singleton, decide_eq_true_eq] at h ⊢
                    exact takes_assign h key _
                | cons next' q =>
                    rw [accepts_cons_cons, Bool.and_eq_true, decide_eq_true_eq] at h ⊢
                    rw [containerAt_assign_of_render_ne (Ne.symm hk)]
                    exact ⟨takes_assign h.1 key _, h.2⟩
            · rw [assign_of_not_takes ht]
              exact h

end Document

end DocPath
