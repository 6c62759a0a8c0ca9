import DocPath.Proofs.Document.PutGet

/-! # What a write leaves alone

A write along a route, or through a destructuring expression at its end, is not seen from any
route that parts with it. Containers on the way stay what they are. -/

namespace DocPath

/-- Two routes meet when one of them begins with the other, key by key as rendered. -/
def Meets (p q : List Key) : Prop :=
  p.map Key.render <+: q.map Key.render ∨ q.map Key.render <+: p.map Key.render

instance (p q : List Key) : Decidable (Meets p q) :=
  inferInstanceAs (Decidable (_ ∨ _))

theorem meets_nil_left (q : List Key) : Meets [] q := Or.inl List.nil_prefix

theorem meets_nil_right (p : List Key) : Meets p [] := Or.inr List.nil_prefix

theorem meets_cons_cons (key other : Key) (p q : List Key) :
    Meets (key :: p) (other :: q) ↔ key.render = other.render ∧ Meets p q := by
  simp only [Meets, List.map_cons, List.cons_prefix_cons]
  constructor
  · rintro (⟨hk, h⟩ | ⟨hk, h⟩)
    · exact ⟨hk, Or.inl h⟩
    · exact ⟨hk.symm, Or.inr h⟩
  · rintro ⟨hk, h | h⟩
    · exact Or.inl ⟨hk, h⟩
    · exact Or.inr ⟨hk.symm, h⟩

/-- Below a common beginning routes meet as they do above it. -/
theorem Meets.of_append {front front' p q : List Key}
    (hf : front.map Key.render = front'.map Key.render) (h : Meets p q) :
    Meets (front ++ p) (front' ++ q) := by
  simpa [Meets, hf] using h

namespace Document

/-! ## One step -/

@[simp] theorem get?_null (keys : List Key) : null.get? keys = none := by
  cases keys <;> rfl

/-- Containers fresh from a write hold as little as what they replace. -/
theorem get?_containerAt_cons (doc : Document) (key other : Key) (indexed : Bool)
    (rest : List Key) :
    (doc.containerAt key indexed).get? (other :: rest) =
      (doc.child? key).bind fun child => child.get? (other :: rest) := by
  have hfresh : (containerAt.fresh indexed).get? (other :: rest) = none := by
    cases indexed <;> cases other <;> simp [containerAt.fresh, child?]
  unfold containerAt
  cases hc : doc.child? key with
  | none => exact hfresh
  | some child =>
      by_cases h : child.isContainer = true
      · simp [h]
      · have hnone : child.child? other = none := by
          cases child <;> simp_all [isContainer, child?]
        simp only [Option.bind_some]
        rw [if_neg h, hfresh, get?_cons, hnone]
        rfl

/-- Another child is what it was, or a null of the padding, which reads as nothing. -/
theorem get?_assign_of_render_ne {key other : Key} (h : other.render ≠ key.render)
    (doc value : Document) (rest : List Key) :
    (doc.assign key value).get? (other :: rest) = doc.get? (other :: rest) := by
  by_cases ht : doc.Takes key
  · rcases takes_cases ht with ⟨entries, rfl⟩ | ⟨items, n, rfl, rfl, hr⟩
    · simp [assign, child?, lookup_putEntry_of_ne h]
    · cases other with
      | name s => rfl
      | index m =>
          have hne : m ≠ n := fun heq => h (by rw [heq])
          simp only [assign, get?_cons, child?]
          rcases getElem?_setItem_of_ne hne value with he | ⟨hnone, hnull⟩
          · rw [he]
          · simp [hnone, hnull]
  · rw [assign_of_not_takes ht]

/-- A child put in place of one that reads alike makes no difference. -/
theorem get?_assign_of_render_eq {key other : Key} (h : other.render = key.render)
    {doc value : Document} {rest : List Key}
    (hv : value.get? rest = (doc.child? key).bind fun child => child.get? rest) :
    (doc.assign key value).get? (other :: rest) = doc.get? (other :: rest) := by
  by_cases ht : doc.Takes key
  · rcases takes_cases ht with ⟨entries, rfl⟩ | ⟨items, n, rfl, rfl, hr⟩
    · simpa [assign, child?, h] using hv
    · cases other with
      | name s => rfl
      | index m =>
          obtain rfl := Key.index_inj_of_render h
          simpa [assign, child?, getElem?_setItem_self hr] using hv
  · rw [assign_of_not_takes ht]

/-- What goes on inside the container under a key is not seen from a route that does not see
it in that container. -/
theorem get?_assign_containerAt {doc inner : Document} {key other : Key} {indexed : Bool}
    {rest : List Key} (hne : rest ≠ [])
    (hi : inner.get? rest = (doc.containerAt key indexed).get? rest)
    (h : other.render = key.render) :
    (doc.assign key inner).get? (other :: rest) = doc.get? (other :: rest) := by
  obtain ⟨next, rest, rfl⟩ := List.exists_cons_of_ne_nil hne
  exact get?_assign_of_render_eq h (hi.trans (get?_containerAt_cons doc key next indexed rest))

/-! ## Whole routes -/

theorem get?_put_of_not_meets {p q : List Key} (h : ¬ Meets p q) (doc value : Document) :
    (doc.put p value).get? q = doc.get? q := by
  induction p generalizing doc q with
  | nil => exact absurd (meets_nil_left q) h
  | cons key p ih =>
      cases q with
      | nil => exact absurd (meets_nil_right _) h
      | cons other q =>
          rw [put_cons]
          split
          · rfl
          · by_cases hk : other.render = key.render
            · have hpq : ¬ Meets p q := fun hm =>
                h ((meets_cons_cons _ _ _ _).mpr ⟨hk.symm, hm⟩)
              cases p with
              | nil => exact absurd (meets_nil_left q) hpq
              | cons next p =>
                  have hq : q ≠ [] := fun hq => hpq (hq ▸ meets_nil_right _)
                  exact get?_assign_containerAt hq (ih hpq _) hk
            · exact get?_assign_of_render_ne hk _ _ _

/-- A change at the end of a route is seen from no route that leaves it on the way, and from
no longer one that does not see the change itself. -/
theorem get?_reshape {front q : List Key} {f : Document → Document}
    (hq : ¬ q.map Key.render <+: front.map Key.render)
    (hf : ∀ front' rest, q = front' ++ rest → front.map Key.render = front'.map Key.render →
      ∀ inner : Document, (f inner).get? rest = inner.get? rest)
    (doc : Document) (cautious : Bool) :
    (doc.reshape cautious front f).get? q = doc.get? q := by
  induction front generalizing doc q with
  | nil => exact hf [] q rfl rfl doc
  | cons key front ih =>
      cases q with
      | nil => exact absurd List.nil_prefix hq
      | cons other q =>
          rw [reshape.eq_def]
          simp only
          split
          · rfl
          · by_cases hk : other.render = key.render
            · have hq' : ¬ q.map Key.render <+: front.map Key.render := fun hp =>
                hq (List.cons_prefix_cons.mpr ⟨hk, hp⟩)
              have hne : q ≠ [] := fun he => hq' (he ▸ List.nil_prefix)
              refine get?_assign_containerAt hne (ih hq' ?_ _) hk
              intro front' rest he hr
              exact hf (other :: front') rest (by rw [he]; rfl) (by simp [hk, hr])
            · exact get?_assign_of_render_ne hk _ _ _

/-- Hands what each rule points at in one document over to another place in another. -/
def carry (origin place : Rule → List Key) (rules : List Rule) (target source : Document) :
    Document :=
  rules.foldl (fun target rule =>
    match source.get? (origin rule) with
    | some value => target.put (place rule) value
    | none => target) target

theorem get?_carry_of_not_meets {origin place : Rule → List Key} {rules : List Rule}
    {q : List Key} (h : ∀ rule ∈ rules, ¬ Meets (place rule) q) (target source : Document) :
    (carry origin place rules target source).get? q = target.get? q := by
  unfold carry
  induction rules generalizing target with
  | nil => rfl
  | cons rule rules ih =>
      rw [List.foldl_cons, ih (fun r hr => h r (List.mem_cons_of_mem _ hr))]
      cases source.get? (origin rule) with
      | none => rfl
      | some value => exact get?_put_of_not_meets (h rule List.mem_cons_self) target value

theorem get?_write_of_not_meets {d : Destructor} {q : List Key}
    (h : ∀ rule ∈ d.rules, ¬ Meets rule.path q) (target flat : Document) :
    (d.write target flat).get? q = target.get? q :=
  @get?_carry_of_not_meets Rule.key Rule.path d.rules q h target flat

/-! ## Containers on the way -/

/-- A container after a write into it: of its kind, with new names behind the old ones. -/
def Grows : Document → Document → Prop
  | object old, object new => old.map Prod.fst <+: new.map Prod.fst
  | array _, array _ => True
  | _, _ => False

theorem grows_refl {doc : Document} (h : doc.isContainer = true) : doc.Grows doc := by
  cases doc with
  | object entries => exact List.prefix_refl _
  | array items => trivial
  | null | bool _ | number _ | text _ => cases h

theorem grows_assign {doc : Document} (h : doc.isContainer = true) (key : Key)
    (value : Document) : doc.Grows (doc.assign key value) := by
  cases doc with
  | object entries => exact map_fst_prefix_putEntry key.render value entries
  | array items => cases key <;> trivial
  | null | bool _ | number _ | text _ => cases h

theorem grows_put {doc : Document} (h : doc.isContainer = true) (keys : List Key)
    (value : Document) : doc.Grows (doc.put keys value) := by
  cases keys with
  | nil => exact grows_refl h
  | cons key rest =>
      rw [put_cons]
      split
      · exact grows_refl h
      · exact grows_assign h key _

/-- Only containers have anything below them. -/
theorem isContainer_of_get?_cons {doc value : Document} {key : Key} {rest : List Key}
    (h : doc.get? (key :: rest) = some value) : doc.isContainer = true := by
  cases doc with
  | object _ | array _ => rfl
  | null | bool _ | number _ | text _ => simp [child?] at h

theorem get?_put_append {before after : List Key} (ha : after ≠ []) {doc old : Document}
    (h : doc.get? before = some old) (hold : old.isContainer = true) (value : Document) :
    ∃ new, (doc.put (before ++ after) value).get? before = some new ∧ old.Grows new := by
  induction before generalizing doc with
  | nil =>
      have hdoc : doc = old := by
        have hf := (Option.filter_eq_some_iff.mp h).1
        exact Option.some.inj hf
      subst hdoc
      refine ⟨doc.put after value, ?_, grows_put hold after value⟩
      apply get?_nil_of_not_isNull
      exact isNull_of_isContainer ((isContainer_put doc after value).trans hold)
  | cons key before ih =>
      have hdoc := h
      rw [get?_cons] at h
      obtain ⟨child, hc, hchild⟩ := Option.bind_eq_some_iff.mp h
      rw [List.cons_append, put_cons]
      split
      · exact ⟨old, hdoc, grows_refl hold⟩
      · have hcontainer : child.isContainer = true := by
          cases before with
          | nil =>
              have hf := (Option.filter_eq_some_iff.mp hchild).1
              rw [Option.some.inj hf]
              exact hold
          | cons next before => exact isContainer_of_get?_cons hchild
        obtain ⟨new, hnew, hgrows⟩ := ih hchild
        refine ⟨new, ?_, hgrows⟩
        rw [get?_assign_cons, if_pos (takes_of_child?_eq_some hc)]
        obtain ⟨next, rest, hrest⟩ := List.exists_cons_of_ne_nil
          (List.append_ne_nil_of_right_ne_nil before ha)
        rw [hrest] at hnew ⊢
        simpa only [containerAt_of_child? hc hcontainer] using hnew

/-! ## Along segments -/

theorem setAt_map_key_append_destructor (doc : Document) (front : List Key) (d : Destructor)
    (value : Document) :
    doc.setAt (front.map .key ++ [.destructor d]) value =
      doc.reshape value.isNull front fun target => d.write target value := by
  simp [setAt, route_append_destructor]

/-- The routes along which a write puts a value: the route itself, or one for each rule of the
destructuring expression at its end. -/
def writtenRoutes (front : List Key) : Option Destructor → List (List Key)
  | none => [front]
  | some d => d.rules.map fun rule => front ++ rule.path

theorem get?_reshape_write_of_not_meets {front q : List Key} {d : Destructor}
    (hq : ¬ q.map Key.render <+: front.map Key.render)
    (h : ∀ route ∈ writtenRoutes front (some d), ¬ Meets route q) (doc value : Document)
    (cautious : Bool) :
    (doc.reshape cautious front fun target => d.write target value).get? q = doc.get? q := by
  apply get?_reshape hq
  intro front' rest hrest hf inner
  apply get?_write_of_not_meets
  intro rule hrule hm
  apply h (front ++ rule.path) (List.mem_map_of_mem hrule)
  rw [hrest]
  exact hm.of_append hf

/-- A write along segments, of which the last may be a destructuring expression, is not seen
from any route that parts with every written one and does not lead to a container on the way.
A container on the way of a plain route is still one of its kind there, with the names it had
in their order. -/
theorem getAt_setAt_of_parted (doc : Document) (front : List Key) (last : Option Destructor)
    (value : Document) :
    let path := front.map Segment.key ++ (last.map Segment.destructor).toList
    (∀ q : List Key, ¬ q.map Key.render <+: front.map Key.render →
      (∀ route ∈ writtenRoutes front last, ¬ Meets route q) →
      (doc.setAt path value).getAt (q.map .key) = doc.getAt (q.map .key)) ∧
    (last = none → ∀ before after : List Key, front = before ++ after → after ≠ [] →
      ∀ old : Document, doc.getAt (before.map .key) = some old → old.isContainer = true →
        ∃ new, (doc.setAt path value).getAt (before.map .key) = some new ∧ old.Grows new) := by
  intro path
  simp only [getAt_map_key]
  constructor
  · intro q hq h
    cases last with
    | none =>
        have hpath : path = front.map Segment.key := List.append_nil _
        rw [hpath, setAt_map_key]
        exact get?_put_of_not_meets (h front List.mem_cons_self) doc value
    | some d =>
        have hpath : path = front.map Segment.key ++ [.destructor d] := rfl
        rw [hpath, setAt_map_key_append_destructor]
        exact get?_reshape_write_of_not_meets hq h doc value _
  · rintro rfl before after rfl ha old hold hcontainer
    have hpath : path = (before ++ after).map Segment.key := List.append_nil _
    rw [hpath, setAt_map_key]
    exact get?_put_append ha hold hcontainer value

/-- Two values are spread below a name, and another name keeps its value. A plain write behind
the end of the array that stands there leaves an array. -/
theorem getAt_setAt_beside_destructor :
    let d : Destructor :=
      ⟨.object [.plain "x", .bound "y" (.nested (.array [.name "z"]))], "{x,y:[z]}"⟩
    let doc := object [("a", bool true), ("b", array [text "old"])]
    let path := [Segment.key (.name "a"), .destructor d]
    let q := [Key.name "b", .index 0]
    ¬ q.map Key.render <+: [Key.name "a"].map Key.render ∧
      (∀ route ∈ writtenRoutes [.name "a"] (some d), ¬ Meets route q) ∧
      (doc.setAt path (object [("x", text "new")])).getAt (q.map .key) = some (text "old") ∧
      ∃ new, (doc.setAt [.key (.name "b"), .key (.index 2)] null).getAt [.key (.name "b")] =
        some new ∧ (array [text "old"]).Grows new := by
  intro d doc path q
  have hq : ¬ q.map Key.render <+: [Key.name "a"].map Key.render := by decide
  have hw : ∀ route ∈ writtenRoutes [.name "a"] (some d), ¬ Meets route q := by decide
  refine ⟨hq, hw, ?_, ?_⟩
  · exact (getAt_setAt_of_parted doc [.name "a"] (some d) (object [("x", text "new")])).1 q hq hw
  · exact (getAt_setAt_of_parted doc [.name "b", .index 2] none null).2 rfl [.name "b"]
      [.index 2] rfl (List.cons_ne_nil _ _) (array [text "old"]) rfl rfl

end Document

end DocPath
