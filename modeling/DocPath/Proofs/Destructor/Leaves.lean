import DocPath.Pattern.Parser
import DocPath.Proofs.Destructor.Rules
import DocPath.Proofs.Document.Frame
import DocPath.Proofs.Equality

/-! # The leaves of templates

A template stands for one rule for each of its leaves, in reading order. The names of the properties
on the way to a leaf make the path of its rule, the positions in arrays on the way make the key. -/

namespace DocPath

/-! ## Leaves and the way to them -/

/-- A turn on the way down a template. Properties and elements are counted from the left. -/
inductive Turn where
  | property (position : Nat) (name : String)
  | element (position : Nat)

/-- Where a leaf stands in the innermost template: it is a property, with the name that it has in
the flat value, or a name in element position. -/
inductive Leaf.Place where
  | property (position : Nat) (name target : String)
  | element (position : Nat) (name : String)

/-- A leaf of a template. The route leads from the root to the innermost template around it. -/
structure Leaf where
  route : List Turn
  place : Leaf.Place

namespace Turn

def position : Turn → Nat
  | .property position _ => position
  | .element position => position

/-- Properties lengthen the path. -/
def path? : Turn → Option Key
  | .property _ name => some (.ofName name)
  | .element _ => none

/-- Elements lengthen the key. -/
def key? : Turn → Option Key
  | .property .. => none
  | .element position => some (.index position)

end Turn

namespace Leaf

def Place.turn : Place → Turn
  | .property position name _ => .property position name
  | .element position _ => .element position

/-- The name that the value is read from. -/
def Place.source : Place → String
  | .property _ name _ => name
  | .element _ name => name

/-- The name of the value in a flat object. In a flat array it has none. -/
def Place.target? : Place → Option String
  | .property _ _ target => some target
  | .element .. => none

/-- Every turn from the root to the leaf itself. -/
def turns (leaf : Leaf) : List Turn := leaf.route ++ [leaf.place.turn]

/-- Addresses in lexicographic order are leaves in reading order. -/
def address (leaf : Leaf) : List Nat := leaf.turns.map Turn.position

def path (leaf : Leaf) : List Key :=
  leaf.route.filterMap Turn.path? ++ [.ofName leaf.place.source]

def key (leaf : Leaf) : List Key :=
  leaf.turns.filterMap Turn.key? ++ (leaf.place.target?.map Key.ofName).toList

def rule (leaf : Leaf) : Rule := ⟨leaf.key, leaf.path⟩

/-- The leaf of a template that is itself behind a turn. -/
def behind (turn : Turn) (leaf : Leaf) : Leaf := ⟨turn :: leaf.route, leaf.place⟩

theorem address_behind (turn : Turn) (leaf : Leaf) :
    (leaf.behind turn).address = turn.position :: leaf.address := rfl

theorem path_behind (turn : Turn) (leaf : Leaf) :
    (leaf.behind turn).path = turn.path?.toList ++ leaf.path := by
  cases turn <;> rfl

theorem key_behind (turn : Turn) (leaf : Leaf) :
    (leaf.behind turn).key = turn.key?.toList ++ leaf.key := by
  cases turn <;> rfl

end Leaf

/-- What it is for a template to have a leaf. -/
inductive Template.HasLeaf : Template → Leaf → Prop where
  | plain {properties : List Property} {position : Nat} {name : String} :
      properties[position]? = some (.plain name) →
      HasLeaf (.object properties) ⟨[], .property position name name⟩
  | renamed {properties : List Property} {position : Nat} {name target : String} :
      properties[position]? = some (.bound name (.name target)) →
      HasLeaf (.object properties) ⟨[], .property position name target⟩
  | property {properties : List Property} {position : Nat} {name : String} {template : Template}
      {leaf : Leaf} : properties[position]? = some (.bound name (.nested template)) →
      HasLeaf template leaf → HasLeaf (.object properties) (leaf.behind (.property position name))
  | identifier {elements : List Slot} {position : Nat} {name : String} :
      elements[position]? = some (.name name) →
      HasLeaf (.array elements) ⟨[], .element position name⟩
  | element {elements : List Slot} {position : Nat} {template : Template} {leaf : Leaf} :
      elements[position]? = some (.nested template) → HasLeaf template leaf →
      HasLeaf (.array elements) (leaf.behind (.element position))

/-! ## Their enumeration -/

mutual

/-- The leaves of a template in reading order. -/
def Template.leaves : Template → List Leaf
  | .object properties => propertyLeaves 0 properties
  | .array elements => elementLeaves 0 elements

def propertyLeaves (position : Nat) : List Property → List Leaf
  | [] => []
  | property :: rest => property.leaves position ++ propertyLeaves (position + 1) rest

def Property.leaves (position : Nat) : Property → List Leaf
  | .plain name => [⟨[], .property position name name⟩]
  | .bound name slot => slot.boundLeaves position name

def Slot.boundLeaves (position : Nat) (name : String) : Slot → List Leaf
  | .name target => [⟨[], .property position name target⟩]
  | .nested template => template.leaves.map (.behind (.property position name))

def elementLeaves (position : Nat) : List Slot → List Leaf
  | [] => []
  | slot :: rest => slot.elementLeaves position ++ elementLeaves (position + 1) rest

def Slot.elementLeaves (position : Nat) : Slot → List Leaf
  | .name name => [⟨[], .element position name⟩]
  | .nested template => template.leaves.map (.behind (.element position))

end

theorem propertyLeaves_eq_flatMap (position : Nat) (properties : List Property) :
    propertyLeaves position properties =
      (properties.zipIdx position).flatMap fun sibling => sibling.1.leaves sibling.2 := by
  induction properties generalizing position with
  | nil => rw [propertyLeaves, List.zipIdx_nil, List.flatMap_nil]
  | cons property rest ih => rw [propertyLeaves, ih, List.zipIdx_cons, List.flatMap_cons]

theorem elementLeaves_eq_flatMap (position : Nat) (elements : List Slot) :
    elementLeaves position elements =
      (elements.zipIdx position).flatMap fun sibling => sibling.1.elementLeaves sibling.2 := by
  induction elements generalizing position with
  | nil => rw [elementLeaves, List.zipIdx_nil, List.flatMap_nil]
  | cons slot rest ih => rw [elementLeaves, ih, List.zipIdx_cons, List.flatMap_cons]

section Siblings

variable {α : Type} {leaves : Nat → α → List Leaf} {siblings : List α}

theorem mem_siblings_iff {leaf : Leaf} :
    (leaf ∈ siblings.zipIdx.flatMap fun sibling => leaves sibling.2 sibling.1) ↔
      ∃ position sibling, siblings[position]? = some sibling ∧ leaf ∈ leaves position sibling := by
  simp only [List.mem_flatMap, Prod.exists, List.mem_zipIdx_iff_getElem?]
  exact exists_comm

/-- What is in reading order below each of some siblings is so below all of them. -/
theorem pairwise_siblings
    (hbelow : ∀ sibling ∈ siblings, ∀ position,
      (leaves position sibling).Pairwise (·.address < ·.address))
    (hfirst : ∀ sibling ∈ siblings, ∀ position, ∀ leaf ∈ leaves position sibling,
      leaf.address.head? = some position) :
    (siblings.zipIdx.flatMap fun sibling => leaves sibling.2 sibling.1).Pairwise
      (·.address < ·.address) := by
  have hpositions : siblings.zipIdx.Pairwise (·.2 < ·.2) := by
    rw [← List.pairwise_map, List.zipIdx_map_snd]
    exact List.pairwise_lt_range'
  refine List.pairwise_flatMap.mpr ⟨?_, hpositions.imp_of_mem ?_⟩
  · intro sibling h
    exact hbelow sibling.1 (List.fst_mem_of_mem_zipIdx h) sibling.2
  · intro first second hf hs hlt leaf hleaf leaf' hleaf'
    obtain ⟨rest, hrest⟩ := List.head?_eq_some_iff.mp
      (hfirst first.1 (List.fst_mem_of_mem_zipIdx hf) first.2 leaf hleaf)
    obtain ⟨rest', hrest'⟩ := List.head?_eq_some_iff.mp
      (hfirst second.1 (List.fst_mem_of_mem_zipIdx hs) second.2 leaf' hleaf')
    rw [hrest, hrest', List.cons_lt_cons_iff]
    exact Or.inl hlt

end Siblings

/-! ## Rules and leaves -/

/-- The rule of a leaf in a template that is itself reached under a key and a path. -/
def Leaf.ruleUnder (key path : List Key) (leaf : Leaf) : Rule :=
  ⟨key ++ leaf.key, path ++ leaf.path⟩

theorem Leaf.ruleUnder_behind (key path : List Key) (turn : Turn) (leaf : Leaf) :
    (leaf.behind turn).ruleUnder key path =
      leaf.ruleUnder (key ++ turn.key?.toList) (path ++ turn.path?.toList) := by
  rw [ruleUnder, ruleUnder, key_behind, path_behind, List.append_assoc, List.append_assoc]

mutual

theorem Template.rulesUnder_eq_map (key path : List Key) (t : Template) :
    t.rulesUnder key path = t.leaves.map (Leaf.ruleUnder key path) := by
  match t with
  | .object properties => exact propertyRules_eq_map key path 0 properties
  | .array elements => exact elementRules_eq_map key path 0 elements

theorem propertyRules_eq_map (key path : List Key) (position : Nat) (properties : List Property) :
    propertyRules key path properties =
      (propertyLeaves position properties).map (Leaf.ruleUnder key path) := by
  match properties with
  | [] => rfl
  | property :: rest =>
      rw [propertyRules, propertyLeaves, List.map_append,
        property.rulesUnder_eq_map key path position, propertyRules_eq_map]

theorem Property.rulesUnder_eq_map (key path : List Key) (position : Nat) (property : Property) :
    property.rulesUnder key path =
      (property.leaves position).map (Leaf.ruleUnder key path) := by
  match property with
  | .plain name => rfl
  | .bound name slot => exact slot.boundRules_eq_map key path position name

theorem Slot.boundRules_eq_map (key path : List Key) (position : Nat) (name : String)
    (slot : Slot) :
    slot.boundRules key (path ++ [.ofName name]) =
      (slot.boundLeaves position name).map (Leaf.ruleUnder key path) := by
  match slot with
  | .name target => rfl
  | .nested template =>
      rw [Slot.boundRules, Slot.boundLeaves, List.map_map, template.rulesUnder_eq_map]
      refine List.map_congr_left fun leaf _ => ?_
      rw [Function.comp_apply, Leaf.ruleUnder_behind]
      simp [Turn.key?, Turn.path?]

theorem elementRules_eq_map (key path : List Key) (position : Nat) (elements : List Slot) :
    elementRules key path position elements =
      (elementLeaves position elements).map (Leaf.ruleUnder key path) := by
  match elements with
  | [] => rfl
  | slot :: rest =>
      rw [elementRules, elementLeaves, List.map_append,
        slot.elementRules_eq_map key path position, elementRules_eq_map]

theorem Slot.elementRules_eq_map (key path : List Key) (position : Nat) (slot : Slot) :
    slot.elementRules (key ++ [.index position]) path =
      (slot.elementLeaves position).map (Leaf.ruleUnder key path) := by
  match slot with
  | .name name => simp [Slot.elementRules, Slot.elementLeaves, Leaf.ruleUnder, Leaf.key, Leaf.path,
      Leaf.turns, Leaf.Place.turn, Leaf.Place.source, Leaf.Place.target?, Turn.key?]
  | .nested template =>
      rw [Slot.elementRules, Slot.elementLeaves, List.map_map, template.rulesUnder_eq_map]
      refine List.map_congr_left fun leaf _ => ?_
      rw [Function.comp_apply, Leaf.ruleUnder_behind]
      simp [Turn.key?, Turn.path?]

end

theorem Template.rules_eq_map (t : Template) : t.rules = t.leaves.map Leaf.rule :=
  t.rulesUnder_eq_map [] []

/-! ## The enumeration is complete and in order -/

/-- Induction over a template and over the templates nested in it. -/
theorem Template.induction {motive : Template → Prop}
    (object : ∀ properties,
      (∀ name inner, .bound name (.nested inner) ∈ properties → motive inner) →
        motive (.object properties))
    (array : ∀ elements, (∀ inner, .nested inner ∈ elements → motive inner) →
      motive (.array elements)) (t : Template) : motive t := by
  match t with
  | .object properties =>
      refine object properties ?_
      intro name inner hmem
      exact Template.induction object array inner
  | .array elements =>
      refine array elements ?_
      intro inner hmem
      exact Template.induction object array inner
termination_by sizeOf t
decreasing_by
  · have hlt := List.sizeOf_lt_of_mem hmem
    simp only [Property.bound.sizeOf_spec, Slot.nested.sizeOf_spec] at hlt
    simp only [Template.object.sizeOf_spec]
    omega
  · have hlt := List.sizeOf_lt_of_mem hmem
    simp only [Slot.nested.sizeOf_spec] at hlt
    simp only [Template.array.sizeOf_spec]
    omega

theorem Template.mem_leaves_iff {t : Template} {leaf : Leaf} :
    leaf ∈ t.leaves ↔ t.HasLeaf leaf := by
  constructor
  · induction t using Template.induction generalizing leaf with
    | object properties ih =>
        rw [Template.leaves, propertyLeaves_eq_flatMap, mem_siblings_iff]
        intro h
        obtain ⟨position, property, hproperty, hleaf⟩ := h
        match property with
        | .plain name =>
            rw [List.mem_singleton.mp hleaf]
            exact .plain hproperty
        | .bound name (.name target) =>
            rw [List.mem_singleton.mp hleaf]
            exact .renamed hproperty
        | .bound name (.nested inner) =>
            obtain ⟨below, hbelow, rfl⟩ := List.mem_map.mp hleaf
            exact .property hproperty (ih name inner (List.mem_of_getElem? hproperty) hbelow)
    | array elements ih =>
        rw [Template.leaves, elementLeaves_eq_flatMap, mem_siblings_iff]
        intro h
        obtain ⟨position, slot, hslot, hleaf⟩ := h
        match slot with
        | .name name =>
            rw [List.mem_singleton.mp hleaf]
            exact .identifier hslot
        | .nested inner =>
            obtain ⟨below, hbelow, rfl⟩ := List.mem_map.mp hleaf
            exact .element hslot (ih inner (List.mem_of_getElem? hslot) hbelow)
  · intro h
    induction h with
    | plain hproperty | renamed hproperty =>
        rw [Template.leaves, propertyLeaves_eq_flatMap, mem_siblings_iff]
        exact ⟨_, _, hproperty, List.mem_singleton_self _⟩
    | property hproperty _ ih =>
        rw [Template.leaves, propertyLeaves_eq_flatMap, mem_siblings_iff]
        exact ⟨_, _, hproperty, List.mem_map_of_mem ih⟩
    | identifier hslot =>
        rw [Template.leaves, elementLeaves_eq_flatMap, mem_siblings_iff]
        exact ⟨_, _, hslot, List.mem_singleton_self _⟩
    | element hslot _ ih =>
        rw [Template.leaves, elementLeaves_eq_flatMap, mem_siblings_iff]
        exact ⟨_, _, hslot, List.mem_map_of_mem ih⟩

theorem pairwise_map_behind {leaves : List Leaf} (h : leaves.Pairwise (·.address < ·.address))
    (turn : Turn) : (leaves.map (Leaf.behind turn)).Pairwise (·.address < ·.address) := by
  refine List.pairwise_map.mpr (h.imp ?_)
  intro leaf leaf' hlt
  rw [Leaf.address_behind, Leaf.address_behind, List.cons_lt_cons_iff]
  exact Or.inr ⟨rfl, hlt⟩

/-- Each leaf is listed once, and behind those to the left of it. -/
theorem Template.pairwise_leaves (t : Template) :
    t.leaves.Pairwise (·.address < ·.address) := by
  induction t using Template.induction with
  | object properties ih =>
      rw [Template.leaves, propertyLeaves_eq_flatMap]
      refine pairwise_siblings ?_ ?_
      · intro property hmem position
        match property with
        | .plain name => exact List.pairwise_singleton _ _
        | .bound name (.name target) => exact List.pairwise_singleton _ _
        | .bound name (.nested inner) => exact pairwise_map_behind (ih name inner hmem) _
      · intro property _ position leaf hleaf
        match property with
        | .plain name | .bound name (.name target) =>
            rw [List.mem_singleton.mp hleaf]
            rfl
        | .bound name (.nested inner) =>
            obtain ⟨below, -, rfl⟩ := List.mem_map.mp hleaf
            rfl
  | array elements ih =>
      rw [Template.leaves, elementLeaves_eq_flatMap]
      refine pairwise_siblings ?_ ?_
      · intro slot hmem position
        match slot with
        | .name name => exact List.pairwise_singleton _ _
        | .nested inner => exact pairwise_map_behind (ih inner hmem) _
      · intro slot _ position leaf hleaf
        match slot with
        | .name name =>
            rw [List.mem_singleton.mp hleaf]
            rfl
        | .nested inner =>
            obtain ⟨below, -, rfl⟩ := List.mem_map.mp hleaf
            rfl

/-! ## Keys of array templates -/

/-- The leaves stand in different elements of one array. -/
def Leaf.Apart (first second : Leaf) : Prop :=
  ∃ front i j rest rest', i ≠ j ∧ first.turns = front ++ .element i :: rest ∧
    second.turns = front ++ .element j :: rest'

theorem Leaf.key_of_turns {leaf : Leaf} {front rest : List Turn} {i : Nat}
    (h : leaf.turns = front ++ .element i :: rest) :
    ∃ more, leaf.key = front.filterMap Turn.key? ++ .index i :: more := by
  refine ⟨rest.filterMap Turn.key? ++ (leaf.place.target?.map Key.ofName).toList, ?_⟩
  rw [key, h, List.filterMap_append, List.filterMap_cons_some (by rfl), List.append_assoc,
    List.cons_append]

theorem meets_append_iff (front p q : List Key) :
    Meets (front ++ p) (front ++ q) ↔ Meets p q := by
  simp only [Meets, List.map_append, List.prefix_append_right_inj]

theorem Leaf.Apart.not_meets {first second : Leaf} (h : first.Apart second) :
    ¬ Meets first.key second.key := by
  obtain ⟨front, i, j, rest, rest', hne, hfirst, hsecond⟩ := h
  obtain ⟨more, hkey⟩ := key_of_turns hfirst
  obtain ⟨more', hkey'⟩ := key_of_turns hsecond
  rw [hkey, hkey', meets_append_iff, meets_cons_cons]
  intro hmeets
  exact hne (Key.index_inj_of_render hmeets.1)

namespace Destructor

/-- An expression has one rule for each leaf of its template, in reading order, and the leaf says
what the rule is. Leaves in different elements of an array have keys of which neither begins with
the other, and each key into a flat array begins with an index. -/
theorem rules_eq_map_leaves (d : Destructor) :
    d.rules = d.template.leaves.map Leaf.rule ∧
      (∀ leaf, leaf ∈ d.template.leaves ↔ d.template.HasLeaf leaf) ∧
      d.template.leaves.Pairwise (·.address < ·.address) ∧
      (∀ first second, d.template.HasLeaf first → d.template.HasLeaf second →
        first.Apart second → ¬ Meets first.rule.key second.rule.key) ∧
      (d.kind = .array → ∀ rule ∈ d.rules, ∃ i more, rule.key = .index i :: more) := by
  have hrules : d.rules = d.template.leaves.map Leaf.rule := d.template.rules_eq_map
  refine ⟨hrules, fun leaf => Template.mem_leaves_iff, d.template.pairwise_leaves, ?_, ?_⟩
  · intro first second _ _ hapart
    exact hapart.not_meets
  · intro hkind rule hrule
    obtain ⟨⟨properties⟩ | ⟨elements⟩, source⟩ := d
    · cases hkind
    · exact exists_index_of_mem_elementRules hrule

/-- Objects between two arrays lengthen the path only, so the key goes on from the outer array. -/
theorem rules_eq_map_leaves_through_object :
    let inner : Template := .object [.bound "b" (.nested (.array [.name "c", .name "d"])),
      .bound "e" (.name "f")]
    let d : Destructor := ⟨.array [.name "a", .nested inner], "[a,{b:[c,d],e:f}]"⟩
    let first : Leaf := ⟨[.element 1, .property 0 "b"], .element 0 "c"⟩
    let second : Leaf := ⟨[.element 1, .property 0 "b"], .element 1 "d"⟩
    Destructor.parse d.source = .ok d ∧
      d.template.HasLeaf first ∧ d.template.HasLeaf second ∧ first.Apart second ∧ d.kind = .array ∧
      first.rule = ⟨[.index 1, .index 0], [.name "b", .name "c"]⟩ ∧
      second.rule = ⟨[.index 1, .index 1], [.name "b", .name "d"]⟩ ∧
      first.rule ∈ d.rules ∧ ¬ Meets first.rule.key second.rule.key ∧
      ∀ rule ∈ d.rules, ∃ i more, rule.key = .index i :: more := by
  intro inner d first second
  have hfirst : d.template.HasLeaf first := .element rfl (.property rfl (.identifier rfl))
  have hsecond : d.template.HasLeaf second := .element rfl (.property rfl (.identifier rfl))
  have hapart : first.Apart second := ⟨_, 0, 1, [], [], by decide, rfl, rfl⟩
  obtain ⟨hrules, hleaves, -, hmeets, hkeys⟩ := rules_eq_map_leaves d
  refine ⟨by decide +kernel, hfirst, hsecond, hapart, rfl, by decide, by decide, ?_,
    hmeets first second hfirst hsecond hapart, hkeys rfl⟩
  rw [hrules]
  exact List.mem_map_of_mem ((hleaves first).mpr hfirst)

end Destructor

end DocPath
