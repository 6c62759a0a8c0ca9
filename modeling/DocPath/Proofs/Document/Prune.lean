import DocPath.Proofs.Document.Frame
import DocPath.Proofs.Destructor.Rules
import Mathlib.Data.List.Induction

/-! # Removing several places at once

A document without the places that some routes lead to, whatever the order of the routes. Taking
the places out one after the other comes to the same as long as no element moves up before the
route that goes through it has been followed. -/

namespace DocPath

/-! ## The document without some places -/

/-- How the routes go on whose first key is the right one. -/
def behind (leads : Key → Bool) (routes : List (List Key)) : List (List Key) :=
  routes.filterMap fun
    | key :: rest => if leads key then some rest else none
    | [] => none

mutual

/-- The document without the entries and elements at the ends of the routes. All others stay, in
their order. -/
def Document.prune (routes : List (List Key)) : Document → Document
  | .object entries => .object (pruneEntries routes entries)
  | .array items => .array (pruneItems routes 0 items)
  | .null => .null
  | .bool value => .bool value
  | .number value => .number value
  | .text value => .text value

def pruneEntries (routes : List (List Key)) :
    List (String × Document) → List (String × Document)
  | [] => []
  | (name, value) :: rest =>
      let inner := behind (·.render == name) routes
      if [] ∈ inner then pruneEntries routes rest
      else (name, value.prune inner) :: pruneEntries routes rest

/-- The elements from `position` on. Routes count positions in the whole array. -/
def pruneItems (routes : List (List Key)) (position : Nat) : List Document → List Document
  | [] => []
  | item :: rest =>
      let inner := behind (· == .index position) routes
      if [] ∈ inner then pruneItems routes (position + 1) rest
      else item.prune inner :: pruneItems routes (position + 1) rest

end

theorem mem_behind_iff {leads : Key → Bool} {routes : List (List Key)} {rest : List Key} :
    rest ∈ behind leads routes ↔ ∃ key, leads key = true ∧ key :: rest ∈ routes := by
  simp only [behind, List.mem_filterMap]
  constructor
  · rintro ⟨route, hroute, h⟩
    cases route with
    | nil => cases h
    | cons key tail =>
        by_cases hk : leads key = true
        · simp only [hk, if_true, Option.some.injEq] at h
          exact ⟨key, hk, h ▸ hroute⟩
        · simp [hk] at h
  · rintro ⟨key, hk, hroute⟩
    exact ⟨key :: rest, hroute, by simp [hk]⟩

theorem behind_append_singleton (leads : Key → Bool) (routes : List (List Key)) (key : Key)
    (rest : List Key) :
    behind leads (routes ++ [key :: rest]) =
      behind leads routes ++ if leads key then [rest] else [] := by
  by_cases hk : leads key = true <;> simp [behind, hk]

theorem behind_append_of_not_leads {leads : Key → Bool} {key : Key} (h : leads key = false)
    (routes : List (List Key)) (rest : List Key) :
    behind leads (routes ++ [key :: rest]) = behind leads routes := by
  simp [behind_append_singleton, h]

theorem pruneEntries_congr {routes routes' : List (List Key)}
    {entries : List (String × Document)}
    (h : ∀ name ∈ entries.map Prod.fst,
      behind (·.render == name) routes = behind (·.render == name) routes') :
    pruneEntries routes entries = pruneEntries routes' entries := by
  induction entries with
  | nil => simp [pruneEntries]
  | cons entry entries ih =>
      obtain ⟨name, value⟩ := entry
      obtain ⟨hname, hrest⟩ := List.forall_mem_cons.mp h
      simp only [pruneEntries, hname, ih hrest]

theorem pruneItems_congr {routes routes' : List (List Key)} {position : Nat}
    {items : List Document}
    (h : ∀ m, position ≤ m → m < position + items.length →
      behind (· == .index m) routes = behind (· == .index m) routes') :
    pruneItems routes position items = pruneItems routes' position items := by
  induction items generalizing position with
  | nil => simp [pruneItems]
  | cons item items ih =>
      rw [List.length_cons] at h
      have hhead := h position (Nat.le_refl _) (by omega)
      have hrest := @ih (position + 1) fun m hl hu => h m (by omega) (by omega)
      simp only [pruneItems, hhead, hrest]

theorem length_pruneItems_le (routes : List (List Key)) (position : Nat)
    (items : List Document) : (pruneItems routes position items).length ≤ items.length := by
  induction items generalizing position with
  | nil => simp [pruneItems]
  | cons item items ih =>
      have := ih (position + 1)
      simp only [pruneItems, List.length_cons]
      split
      · omega
      · rw [List.length_cons]
        omega

/-- Where no route ends at an element, elements keep their positions. -/
theorem length_pruneItems {routes : List (List Key)} {position : Nat} {items : List Document}
    (h : ∀ m, position ≤ m → m < position + items.length →
      [] ∉ behind (· == .index m) routes) :
    (pruneItems routes position items).length = items.length := by
  induction items generalizing position with
  | nil => simp [pruneItems]
  | cons item items ih =>
      rw [List.length_cons] at h
      have hhead := h position (Nat.le_refl _) (by omega)
      have hrest := @ih (position + 1) fun m hl hu => h m (by omega) (by omega)
      simp [pruneItems, hhead, hrest]

theorem pruneItems_append (routes : List (List Key)) (position : Nat)
    (before after : List Document) :
    pruneItems routes position (before ++ after) =
      pruneItems routes position before ++
        pruneItems routes (position + before.length) after := by
  induction before generalizing position with
  | nil => simp [pruneItems]
  | cons item before ih =>
      have hlength : position + 1 + before.length = position + (before.length + 1) := by omega
      simp only [List.cons_append, pruneItems, ih, List.length_cons, hlength]
      split <;> rfl

/-- A route through one element makes no difference to the elements around it. -/
theorem pruneItems_append_singleton (routes : List (List Key)) (rest : List Key)
    (before after : List Document) (item : Document) :
    let inner := behind (· == .index before.length) routes ++ [rest]
    pruneItems (routes ++ [.index before.length :: rest]) 0 (before ++ item :: after) =
      pruneItems routes 0 before ++ ((if [] ∈ inner then [] else [item.prune inner]) ++
        pruneItems routes (before.length + 1) after) := by
  have hother : ∀ m, m ≠ before.length →
      behind (· == .index m) (routes ++ [.index before.length :: rest]) =
        behind (· == .index m) routes := by
    intro m hm
    exact behind_append_of_not_leads (by simpa using Ne.symm hm) routes rest
  have hbefore : pruneItems (routes ++ [.index before.length :: rest]) 0 before =
      pruneItems routes 0 before := pruneItems_congr fun m _ hu => hother m (by omega)
  have hafter : pruneItems (routes ++ [.index before.length :: rest]) (before.length + 1) after =
      pruneItems routes (before.length + 1) after :=
    pruneItems_congr fun m hl _ => hother m (by omega)
  intro inner
  rw [pruneItems_append, Nat.zero_add, hbefore]
  simp only [pruneItems, behind_append_singleton, hafter, beq_self_eq_true, if_true]
  congr 1
  split <;> rfl

namespace Document

mutual

theorem prune_nil : ∀ doc : Document, doc.prune [] = doc
  | object entries => by simp [prune, pruneEntries_nil entries]
  | array items => by simp [prune, pruneItems_nil 0 items]
  | null | bool _ | number _ | text _ => by simp [prune]

theorem pruneEntries_nil : ∀ entries : List (String × Document),
    pruneEntries [] entries = entries
  | [] => by simp [pruneEntries]
  | (name, value) :: rest => by
      simp [pruneEntries, behind, prune_nil value, pruneEntries_nil rest]

theorem pruneItems_nil : ∀ (position : Nat) (items : List Document),
    pruneItems [] position items = items
  | _, [] => by simp [pruneItems]
  | position, item :: rest => by
      simp [pruneItems, behind, prune_nil item, pruneItems_nil (position + 1) rest]

end

theorem prune_congr {routes routes' : List (List Key)}
    (h : ∀ leads, behind leads routes = behind leads routes') (doc : Document) :
    doc.prune routes = doc.prune routes' := by
  cases doc with
  | object entries => simp only [prune, pruneEntries_congr fun name _ => h (·.render == name)]
  | array items =>
      have hitems : pruneItems routes 0 items = pruneItems routes' 0 items :=
        pruneItems_congr fun m _ _ => h (· == .index m)
      simp only [prune, hitems]
  | null | bool _ | number _ | text _ => simp [prune]

/-! ## Removals that move what others lead to -/

/-- No object names two entries alike. -/
inductive Distinct : Document → Prop where
  | scalar {doc : Document} : doc.isContainer = false → Distinct doc
  | array {items : List Document} : (∀ item ∈ items, Distinct item) → Distinct (array items)
  | object {entries : List (String × Document)} : (entries.map Prod.fst).Nodup →
      (∀ entry ∈ entries, Distinct entry.2) → Distinct (object entries)

@[simp] theorem distinct_null : null.Distinct := .scalar rfl

@[simp] theorem distinct_text (value : String) : (text value).Distinct := .scalar rfl

@[simp] theorem distinct_array_iff {items : List Document} :
    (array items).Distinct ↔ ∀ item ∈ items, item.Distinct := by
  constructor
  · rintro (h | h | h)
    · cases h
    · exact h
  · exact .array

@[simp] theorem distinct_object_iff {entries : List (String × Document)} :
    (object entries).Distinct ↔
      (entries.map Prod.fst).Nodup ∧ ∀ entry ∈ entries, entry.2.Distinct := by
  constructor
  · rintro (h | h | ⟨hnodup, hentries⟩)
    · cases h
    · exact ⟨hnodup, hentries⟩
  · rintro ⟨hnodup, hentries⟩
    exact .object hnodup hentries

/-- Objects are put together from entries in a way that leaves each name once. -/
theorem distinct_ofEntries {entries : List (String × Document)}
    (h : ∀ entry ∈ entries, entry.2.Distinct) : (ofEntries entries).Distinct := by
  have hfold : ∀ old : List (String × Document), (object old).Distinct →
      (object (entries.foldl (fun acc e => putEntry e.1 e.2 acc) old)).Distinct := by
    induction entries with
    | nil => exact fun _ hold => hold
    | cons entry entries ih =>
        intro old hold
        obtain ⟨hentry, hentries⟩ := List.forall_mem_cons.mp h
        obtain ⟨hnodup, hvalues⟩ := distinct_object_iff.mp hold
        refine ih hentries _ (.object (nodup_map_fst_putEntry entry.1 entry.2 hnodup) ?_)
        intro e he
        rcases eq_or_mem_of_mem_putEntry he with rfl | he
        · exact hentry
        · exact hvalues e he
  exact hfold [] (by simp)

theorem Distinct.child? {doc child : Document} {key : Key} (h : doc.Distinct)
    (hc : doc.child? key = some child) : child.Distinct := by
  cases doc with
  | object entries =>
      obtain ⟨before, after, rfl, -⟩ := List.lookup_eq_some_iff.mp hc
      exact (distinct_object_iff.mp h).2 (key.render, child) (by simp)
  | array items =>
      cases key with
      | name s => cases hc
      | index n => exact distinct_array_iff.mp h child (List.mem_of_getElem? hc)
  | null | bool _ | number _ | text _ => cases hc

/-- Both keys select elements of an array, the first one an earlier element. -/
def Precedes : Document → Key → Key → Prop
  | .array items, .index a, .index b => a < b ∧ b < items.length
  | _, _, _ => False

/-- Taking out what the first route leads to moves what the second one goes through: it ends at
an element of an array that the second one goes on in at a later element. -/
def Displaces (doc : Document) : List Key → List Key → Prop
  | key :: gone, other :: kept =>
      (gone = [] ∧ doc.Precedes key other) ∨
        key.render = other.render ∧ ∃ child ∈ doc.child? other, child.Displaces gone kept
  | _, _ => False

instance (doc : Document) (key other : Key) : Decidable (doc.Precedes key other) :=
  match doc, key, other with
  | array items, .index a, .index b => inferInstanceAs (Decidable (a < b ∧ b < items.length))
  | array _, .index _, .name _ | array _, .name _, _ => isFalse id
  | object _, _, _ | null, _, _ | bool _, _, _ | number _, _, _ | text _, _, _ => isFalse id

instance decidableDisplaces :
    (doc : Document) → (gone kept : List Key) → Decidable (doc.Displaces gone kept)
  | _, [], _ | _, _ :: _, [] => isFalse (by simp [Displaces])
  | doc, key :: gone, other :: kept =>
      have := fun child : Document => decidableDisplaces child gone kept
      inferInstanceAs (Decidable (_ ∨ _ ∧ ∃ child ∈ doc.child? other, child.Displaces gone kept))

/-! ## One removal more -/

theorem dropEntry_pruneEntries (routes : List (List Key)) (key : Key)
    (entries : List (String × Document)) :
    dropEntry key.render (pruneEntries routes entries) =
      pruneEntries (routes ++ [[key]]) entries := by
  induction entries with
  | nil => simp [pruneEntries, dropEntry]
  | cons entry entries ih =>
      obtain ⟨name, value⟩ := entry
      simp only [pruneEntries, behind_append_singleton, ← ih]
      by_cases hk : key.render = name
      · by_cases hin : [] ∈ behind (·.render == name) routes <;> simp [dropEntry, hk, hin]
      · by_cases hin : [] ∈ behind (·.render == name) routes <;>
          simp [dropEntry, hk, hin, Ne.symm hk]

/-- Entries with the value of one changed in its place. -/
def alterEntry (name : String) (f : Document → Document) :
    List (String × Document) → List (String × Document)
  | [] => []
  | (k, v) :: rest => if k = name then (k, f v) :: rest else (k, v) :: alterEntry name f rest

theorem alterEntry_eq (name : String) (f : Document → Document)
    (entries : List (String × Document)) :
    alterEntry name f entries =
      match entries.lookup name with
      | some value => putEntry name (f value) entries
      | none => entries := by
  induction entries with
  | nil => rfl
  | cons entry entries ih =>
      obtain ⟨k, v⟩ := entry
      by_cases hk : k = name
      · simp [alterEntry, putEntry, hk]
      · have hne : (name == k) = false := beq_eq_false_iff_ne.mpr (Ne.symm hk)
        simp only [alterEntry, hk, if_false, ih, List.lookup_cons, hne]
        cases entries.lookup name <;> simp [putEntry, hk]

theorem remove_object_cons_cons (entries : List (String × Document)) (key next : Key)
    (rest : List Key) :
    (object entries).remove (key :: next :: rest) =
      object (alterEntry key.render (·.remove (next :: rest)) entries) := by
  rw [alterEntry_eq]
  simp only [remove, child?, assign]
  cases entries.lookup key.render <;> rfl

/-- In objects nothing moves. -/
theorem alterEntry_pruneEntries {routes : List (List Key)} {key : Key} {rest : List Key}
    (hrest : rest ≠ []) {entries : List (String × Document)}
    (hnodup : (entries.map Prod.fst).Nodup)
    (hkept : [] ∉ behind (·.render == key.render) routes)
    (hchild : ∀ child, entries.lookup key.render = some child →
      (child.prune (behind (·.render == key.render) routes)).remove rest =
        child.prune (behind (·.render == key.render) routes ++ [rest])) :
    alterEntry key.render (·.remove rest) (pruneEntries routes entries) =
      pruneEntries (routes ++ [key :: rest]) entries := by
  induction entries with
  | nil => simp [pruneEntries, alterEntry]
  | cons entry entries ih =>
      obtain ⟨name, value⟩ := entry
      obtain ⟨hfresh, hnodup⟩ := List.nodup_cons.mp hnodup
      by_cases hk : key.render = name
      · subst hk
        have htail : pruneEntries routes entries =
            pruneEntries (routes ++ [key :: rest]) entries := by
          apply pruneEntries_congr
          intro name hname
          rw [behind_append_of_not_leads]
          exact beq_eq_false_iff_ne.mpr fun he => hfresh (he ▸ hname)
        have hvalue := hchild value (by simp)
        simp [pruneEntries, behind_append_singleton, hkept, hrest.symm, ← htail, alterEntry,
          hvalue]
      · have hne : (key.render == name) = false := beq_eq_false_iff_ne.mpr hk
        have htail := ih hnodup fun child hc => hchild child (by simp [List.lookup_cons, hne, hc])
        have hsame : behind (·.render == name) (routes ++ [key :: rest]) =
            behind (·.render == name) routes := behind_append_of_not_leads hne routes rest
        simp only [pruneEntries, hsame, ← htail]
        split
        · rfl
        · simp [alterEntry, Ne.symm hk]

theorem remove_array_append (before after : List Document) (item : Document)
    (rest : List Key) :
    (array (before ++ item :: after)).remove (.index before.length :: rest) =
      array (before ++ ((if rest = [] then [] else [item.remove rest]) ++ after)) := by
  cases rest with
  | nil => simp [remove, unassign, List.eraseIdx_append_of_length_le]
  | cons next rest => simp [remove, child?, assign, setItem]

theorem remove_array_of_length_le {items : List Document} {n : Nat} (h : items.length ≤ n)
    (rest : List Key) : (array items).remove (.index n :: rest) = array items := by
  cases rest with
  | nil => simp [remove, unassign, List.eraseIdx_of_length_le h]
  | cons next rest => simp [remove, child?, h]

/-- In an array an element is where it was if no element in front of it is gone. -/
theorem remove_array_pruneItems {routes : List (List Key)} {n : Nat} {rest : List Key}
    {items : List Document}
    (hfront : ∀ m, m < n → n < items.length → [] ∉ behind (· == .index m) routes)
    (hkept : [] ∉ behind (· == .index n) routes)
    (hchild : ∀ child, items[n]? = some child →
      (child.prune (behind (· == .index n) routes)).remove rest =
        child.prune (behind (· == .index n) routes ++ [rest])) :
    (array (pruneItems routes 0 items)).remove (.index n :: rest) =
      array (pruneItems (routes ++ [.index n :: rest]) 0 items) := by
  by_cases hn : n < items.length
  · obtain ⟨before, item, after, rfl, rfl⟩ :
        ∃ before item after, items = before ++ item :: after ∧ before.length = n :=
      ⟨items.take n, items[n], items.drop (n + 1), by simp, by simp [Nat.le_of_lt hn]⟩
    have hlength : (pruneItems routes 0 before).length = before.length :=
      length_pruneItems fun m _ hu => hfront m (by omega) hn
    have hitem := hchild item (by simp)
    have hitems := pruneItems_append routes 0 before (item :: after)
    simp only [pruneItems, Nat.zero_add, hkept, if_false] at hitems
    have hremove := remove_array_append (pruneItems routes 0 before)
      (pruneItems routes (before.length + 1) after)
      (item.prune (behind (· == .index before.length) routes)) rest
    rw [hlength, hitem] at hremove
    rw [hitems, hremove, pruneItems_append_singleton]
    simp [hkept, eq_comm]
  · have hle : items.length ≤ n := Nat.le_of_not_lt hn
    have hsame : pruneItems (routes ++ [.index n :: rest]) 0 items = pruneItems routes 0 items := by
      apply pruneItems_congr
      intro m _ hu
      exact behind_append_of_not_leads (by simpa using (by omega : n ≠ m)) routes rest
    rw [hsame]
    exact remove_array_of_length_le (Nat.le_trans (length_pruneItems_le routes 0 items) hle) rest

theorem remove_array_name (items : List Document) (name : String) (rest : List Key) :
    (array items).remove (.name name :: rest) = array items := by
  cases rest <;> rfl

theorem remove_of_not_isContainer {doc : Document} (h : doc.isContainer = false)
    (keys : List Key) : doc.remove keys = doc := by
  cases doc with
  | object _ | array _ => cases h
  | null | bool _ | number _ | text _ => rcases keys with _ | ⟨key, _ | ⟨next, rest⟩⟩ <;> rfl

/-- Parted routes do not end where the other goes on. -/
theorem nil_notMem_behind {routes : List (List Key)} {leads : Key → Bool} {key : Key}
    {rest : List Key} (hm : ∀ gone ∈ routes, ¬ Meets gone (key :: rest))
    (hl : ∀ other, leads other = true → other.render = key.render) :
    [] ∉ behind leads routes := by
  rw [mem_behind_iff]
  rintro ⟨other, hleads, hroute⟩
  exact hm _ hroute ((meets_cons_cons _ _ _ _).mpr ⟨hl other hleads, meets_nil_left rest⟩)

theorem not_meets_behind {routes : List (List Key)} {leads : Key → Bool} {key : Key}
    {rest : List Key} (hm : ∀ gone ∈ routes, ¬ Meets gone (key :: rest))
    (hl : ∀ other, leads other = true → other.render = key.render) :
    ∀ gone ∈ behind leads routes, ¬ Meets gone rest := by
  intro gone hgone hmeets
  obtain ⟨other, hleads, hroute⟩ := mem_behind_iff.mp hgone
  exact hm _ hroute ((meets_cons_cons _ _ _ _).mpr ⟨hl other hleads, hmeets⟩)

theorem not_displaces_behind {doc child : Document} {routes : List (List Key)}
    {leads : Key → Bool} {key : Key} {rest : List Key}
    (hd : ∀ gone ∈ routes, ¬ doc.Displaces gone (key :: rest))
    (hl : ∀ other, leads other = true → other.render = key.render)
    (hc : doc.child? key = some child) :
    ∀ gone ∈ behind leads routes, ¬ child.Displaces gone rest := by
  intro gone hgone hdisplaces
  obtain ⟨other, hleads, hroute⟩ := mem_behind_iff.mp hgone
  exact hd _ hroute (Or.inr ⟨hl other hleads, child, hc, hdisplaces⟩)

/-- A route that parts with all others, and goes through no element that they displace, still
leads to what it led to after the places at their ends are gone. -/
theorem remove_prune {doc : Document} (hdoc : doc.Distinct) {routes : List (List Key)}
    {route : List Key} (hm : ∀ gone ∈ routes, ¬ Meets gone route)
    (hd : ∀ gone ∈ routes, ¬ doc.Displaces gone route) :
    (doc.prune routes).remove route = doc.prune (routes ++ [route]) := by
  induction route generalizing doc routes with
  | nil => exact prune_congr (fun leads => by simp [behind]) doc
  | cons key rest ih =>
      have hchild : ∀ leads child, (∀ other, leads other = true → other.render = key.render) →
          doc.child? key = some child →
          (child.prune (behind leads routes)).remove rest =
            child.prune (behind leads routes ++ [rest]) := by
        intro leads child hl hc
        exact ih (hdoc.child? hc) (not_meets_behind hm hl) (not_displaces_behind hd hl hc)
      cases doc with
      | object entries =>
          simp only [prune]
          cases rest with
          | nil => exact congrArg object (dropEntry_pruneEntries routes key entries)
          | cons next rest =>
              have hl : ∀ other : Key, (other.render == key.render) = true →
                  other.render = key.render := fun _ h => eq_of_beq h
              have hnodup := (distinct_object_iff.mp hdoc).1
              rw [remove_object_cons_cons]
              refine congrArg object (alterEntry_pruneEntries (List.cons_ne_nil _ _) hnodup ?_ ?_)
              · exact nil_notMem_behind hm hl
              · intro child hc
                exact hchild _ child hl hc
      | array items =>
          simp only [prune]
          cases key with
          | name s =>
              rw [remove_array_name]
              refine congrArg array (pruneItems_congr ?_)
              intro m _ _
              exact (behind_append_of_not_leads (by simp) routes rest).symm
          | index n =>
              have hl : ∀ other : Key, (other == .index n) = true →
                  other.render = (Key.index n).render := fun _ h => by rw [eq_of_beq h]
              refine remove_array_pruneItems ?_ (nil_notMem_behind hm hl) ?_
              · intro m hmn hn hmem
                obtain ⟨other, hother, hroute⟩ := mem_behind_iff.mp hmem
                rw [eq_of_beq hother] at hroute
                exact hd _ hroute (Or.inl ⟨rfl, hmn, hn⟩)
              · intro child hc
                exact hchild _ child hl hc
      | null | bool _ | number _ | text _ =>
          simp only [prune]
          exact remove_of_not_isContainer rfl (key :: rest)

end Document

namespace Destructor

open Document

/-- What the rules point at is gone and everything else is where it was, if no rule points at or
behind an element that an earlier rule has moved up. -/
theorem remove_eq_prune {d : Destructor} {doc : Document} (hdoc : doc.Distinct)
    (hparted : (d.rules.map Rule.path).Pairwise fun gone kept => ¬ Meets gone kept)
    (hstill : (d.rules.map Rule.path).Pairwise fun gone kept => ¬ doc.Displaces gone kept) :
    d.remove doc = doc.prune (d.rules.map Rule.path) := by
  have hfold : ∀ rules : List Rule,
      ((rules.map Rule.path).Pairwise fun gone kept =>
        ¬ Meets gone kept ∧ ¬ doc.Displaces gone kept) →
      rules.foldl (fun target rule => target.remove rule.path) doc =
        doc.prune (rules.map Rule.path) := by
    intro rules h
    induction rules using List.reverseRecOn with
    | nil => exact (prune_nil doc).symm
    | append_singleton rules rule ih =>
        rw [List.map_append, List.pairwise_append] at h
        obtain ⟨hbefore, -, hlast⟩ := h
        rw [List.foldl_append, List.foldl_cons, List.foldl_nil, ih hbefore, List.map_append]
        apply remove_prune hdoc
        · exact fun gone hgone => (hlast gone hgone rule.path (by simp)).1
        · exact fun gone hgone => (hlast gone hgone rule.path (by simp)).2
  exact hfold d.rules (hparted.and hstill)

/-- Elements are taken out from the back, and what lies below their neighbours from the front. -/
theorem remove_eq_prune_from_the_back :
    let d : Destructor := ⟨.object [.bound "list" (.nested (.object [.bound "3" (.name "d"),
      .bound "0" (.nested (.object [.plain "x"])), .bound "1" (.name "b"), .plain "7"])),
      .plain "k"], "{list:{3:d,0:{x},1:b,7},k}"⟩
    let doc := object [("k", null), ("list", array [object [("x", null), ("y", text "a")],
      text "b", text "c", text "d", text "e"]), ("l", text "f")]
    doc.Distinct ∧
      ((d.rules.map Rule.path).Pairwise fun gone kept => ¬ Meets gone kept) ∧
      ((d.rules.map Rule.path).Pairwise fun gone kept => ¬ doc.Displaces gone kept) ∧
      d.remove doc = object [("list", array [object [("y", text "a")], text "c", text "e"]),
        ("l", text "f")] := by
  intro d doc
  have hdoc : doc.Distinct := by simp [doc]
  have hparted : (d.rules.map Rule.path).Pairwise fun gone kept => ¬ Meets gone kept := by decide
  have hstill : (d.rules.map Rule.path).Pairwise fun gone kept => ¬ doc.Displaces gone kept := by
    decide
  exact ⟨hdoc, hparted, hstill, (remove_eq_prune hdoc hparted hstill).trans rfl⟩

/-- The second rule finds the third element where the second one was. -/
theorem remove_ne_prune_of_neighbours :
    let d : Destructor := ⟨.object [.plain "0", .plain "1"], "{0,1}"⟩
    let doc := array [text "x", text "y", text "z"]
    doc.Distinct ∧
      ((d.rules.map Rule.path).Pairwise fun gone kept => ¬ Meets gone kept) ∧
      d.remove doc = array [text "y"] ∧
      doc.prune (d.rules.map Rule.path) = array [text "z"] ∧
      d.remove doc ≠ doc.prune (d.rules.map Rule.path) := by
  intro d doc
  have hdoc : doc.Distinct := by simp [doc]
  have hremove : d.remove doc = array [text "y"] := rfl
  have hprune : doc.prune (d.rules.map Rule.path) = array [text "z"] := rfl
  exact ⟨hdoc, by decide, hremove, hprune, by simp [hremove, hprune]⟩

end Destructor

end DocPath
