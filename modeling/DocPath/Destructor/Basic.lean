import DocPath.Document.Basic

/-! Destructuring expressions: templates such as `{a, b: {c: d}, e: [x, y]}`, the rules they stand
for, and the texts they are written as. A rule pairs a place in the flat value with a place in the
nested one. -/

namespace DocPath

mutual

/-- The shape of a destructuring expression: `{ ... }` or `[ ... ]`. -/
inductive Template where
  | object (properties : List Property)
  | array (elements : List Slot)

/-- A property is taken under its own name, or handed to a slot (`key: slot`). -/
inductive Property where
  | plain (key : String)
  | bound (key : String) (slot : Slot)

/-- A slot is a name, or a template one level further in. -/
inductive Slot where
  | name (name : String)
  | nested (template : Template)

end

/-- The flat value of a template is an object or an array. -/
inductive Template.Kind where
  | object
  | array
deriving DecidableEq

def Template.kind : Template → Template.Kind
  | .object _ => .object
  | .array _ => .array

/-- The value at `path` in the nested document is the value at `key` in the flat one. -/
structure Rule where
  key : List Key
  path : List Key
deriving DecidableEq

/-! Objects lengthen the path and leave the key alone, arrays lengthen the key and leave the
path alone. -/

mutual

def Template.rulesUnder (key path : List Key) : Template → List Rule
  | .object properties => propertyRules key path properties
  | .array elements => elementRules key path 0 elements

def propertyRules (key path : List Key) : List Property → List Rule
  | [] => []
  | property :: rest => property.rulesUnder key path ++ propertyRules key path rest

def Property.rulesUnder (key path : List Key) : Property → List Rule
  | .plain name => [⟨key ++ [.ofName name], path ++ [.ofName name]⟩]
  | .bound name slot => slot.boundRules key (path ++ [.ofName name])

/-- A name in value position renames the property that leads to it. -/
def Slot.boundRules (key path : List Key) : Slot → List Rule
  | .name name => [⟨key ++ [.ofName name], path⟩]
  | .nested template => template.rulesUnder key path

def elementRules (key path : List Key) (position : Nat) : List Slot → List Rule
  | [] => []
  | slot :: rest =>
      slot.elementRules (key ++ [.index position]) path ++
        DocPath.elementRules key path (position + 1) rest

/-- A name in element position is read from under that name. -/
def Slot.elementRules (key path : List Key) : Slot → List Rule
  | .name name => [⟨key, path ++ [.ofName name]⟩]
  | .nested template => template.rulesUnder key path

end

/-- Every leaf of a template gives one rule, in reading order. -/
def Template.rules (template : Template) : List Rule :=
  template.rulesUnder [] []

/-- The source has no blanks. It is what shows of the expression wherever a text is needed. -/
structure Destructor where
  template : Template
  source : String

namespace Destructor

def kind (d : Destructor) : Template.Kind := d.template.kind

def rules (d : Destructor) : List Rule := d.template.rules

/-- Expressions are equal when their sources are. -/
instance : BEq Destructor := ⟨fun d e => d.source == e.source⟩

end Destructor

end DocPath
