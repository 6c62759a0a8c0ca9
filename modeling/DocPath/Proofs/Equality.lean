import DocPath.Document.Basic
import DocPath.Path.Basic
import Mathlib.Data.List.Basic

/-! # Equality that can be decided

Templates, steps and documents hold lists of their own kind, so that equality has to be decided
along their structure, lists included. With it, what a text is read as can be compared with what
it is expected to be read as. -/

namespace DocPath

/-- Lists are equal when their first elements and what follows them are. -/
def decEqCons {α : Type} {a b : α} {as bs : List α} (head : Decidable (a = b))
    (tail : Decidable (as = bs)) : Decidable (a :: as = b :: bs) :=
  decidable_of_iff (a = b ∧ as = bs) (by simp)

/-! ## Templates -/

mutual

def Template.decEq : (s t : Template) → Decidable (s = t)
  | .object properties, .object others =>
      haveI := decEqProperties properties others
      decidable_of_iff (properties = others) (by simp)
  | .array elements, .array others =>
      haveI := decEqSlots elements others
      decidable_of_iff (elements = others) (by simp)
  | .object _, .array _ | .array _, .object _ => isFalse nofun

def Property.decEq : (p q : Property) → Decidable (p = q)
  | .plain key, .plain key' => decidable_of_iff (key = key') (by simp)
  | .bound key slot, .bound key' slot' =>
      haveI := slot.decEq slot'
      decidable_of_iff (key = key' ∧ slot = slot') (by simp)
  | .plain _, .bound .. | .bound .., .plain _ => isFalse nofun

def Slot.decEq : (s t : Slot) → Decidable (s = t)
  | .name name, .name name' => decidable_of_iff (name = name') (by simp)
  | .nested template, .nested template' =>
      haveI := template.decEq template'
      decidable_of_iff (template = template') (by simp)
  | .name _, .nested _ | .nested _, .name _ => isFalse nofun

def decEqProperties : (ps qs : List Property) → Decidable (ps = qs)
  | [], [] => isTrue rfl
  | p :: ps, q :: qs => decEqCons (p.decEq q) (decEqProperties ps qs)
  | [], _ :: _ | _ :: _, [] => isFalse nofun

def decEqSlots : (ss ts : List Slot) → Decidable (ss = ts)
  | [], [] => isTrue rfl
  | s :: ss, t :: ts => decEqCons (s.decEq t) (decEqSlots ss ts)
  | [], _ :: _ | _ :: _, [] => isFalse nofun

end

instance : DecidableEq Template := Template.decEq

-- Coarser than this, `==` goes on to compare expressions by their sources alone.
deriving instance DecidableEq for Destructor, Segment

/-! ## Chains -/

mutual

def Step.decEq : (s t : Step) → Decidable (s = t)
  | .name text bracketed expand, .name text' bracketed' expand' =>
      decidable_of_iff (text = text' ∧ bracketed = bracketed' ∧ expand = expand') (by simp)
  | .verbatim text, .verbatim text' => decidable_of_iff (text = text') (by simp)
  | .any, .any => isTrue rfl
  | .range bounds, .range bounds' => decidable_of_iff (bounds = bounds') (by simp)
  | .group exclude members, .group exclude' members' =>
      haveI := decEqMembers members members'
      decidable_of_iff (exclude = exclude' ∧ members = members') (by simp)
  | .destructor d, .destructor d' => decidable_of_iff (d = d') (by simp)
  | .name .., .verbatim _ | .name .., .any | .name .., .range _ | .name .., .group .. |
    .name .., .destructor _ | .verbatim _, .name .. | .verbatim _, .any |
    .verbatim _, .range _ | .verbatim _, .group .. | .verbatim _, .destructor _ |
    .any, .name .. | .any, .verbatim _ | .any, .range _ | .any, .group .. |
    .any, .destructor _ | .range _, .name .. | .range _, .verbatim _ | .range _, .any |
    .range _, .group .. | .range _, .destructor _ | .group .., .name .. |
    .group .., .verbatim _ | .group .., .any | .group .., .range _ |
    .group .., .destructor _ | .destructor _, .name .. | .destructor _, .verbatim _ |
    .destructor _, .any | .destructor _, .range _ | .destructor _, .group .. => isFalse nofun

def decEqChain : (c d : List Step) → Decidable (c = d)
  | [], [] => isTrue rfl
  | s :: c, t :: d => decEqCons (s.decEq t) (decEqChain c d)
  | [], _ :: _ | _ :: _, [] => isFalse nofun

def decEqMembers : (ms ns : List (List Step)) → Decidable (ms = ns)
  | [], [] => isTrue rfl
  | m :: ms, n :: ns => decEqCons (decEqChain m n) (decEqMembers ms ns)
  | [], _ :: _ | _ :: _, [] => isFalse nofun

end

instance : DecidableEq Step := Step.decEq

deriving instance DecidableEq for Path

/-! ## Documents -/

mutual

def Document.decEq : (a b : Document) → Decidable (a = b)
  | .null, .null => isTrue rfl
  | .bool value, .bool value' => decidable_of_iff (value = value') (by simp)
  | .number value, .number value' => decidable_of_iff (value = value') (by simp)
  | .text value, .text value' => decidable_of_iff (value = value') (by simp)
  | .array items, .array items' =>
      haveI := decEqItems items items'
      decidable_of_iff (items = items') (by simp)
  | .object entries, .object entries' =>
      haveI := decEqEntries entries entries'
      decidable_of_iff (entries = entries') (by simp)
  | .null, .bool _ | .null, .number _ | .null, .text _ | .null, .array _ | .null, .object _ |
    .bool _, .null | .bool _, .number _ | .bool _, .text _ | .bool _, .array _ |
    .bool _, .object _ | .number _, .null | .number _, .bool _ | .number _, .text _ |
    .number _, .array _ | .number _, .object _ | .text _, .null | .text _, .bool _ |
    .text _, .number _ | .text _, .array _ | .text _, .object _ | .array _, .null |
    .array _, .bool _ | .array _, .number _ | .array _, .text _ | .array _, .object _ |
    .object _, .null | .object _, .bool _ | .object _, .number _ | .object _, .text _ |
    .object _, .array _ => isFalse nofun

def decEqItems : (as bs : List Document) → Decidable (as = bs)
  | [], [] => isTrue rfl
  | a :: as, b :: bs => decEqCons (a.decEq b) (decEqItems as bs)
  | [], _ :: _ | _ :: _, [] => isFalse nofun

def decEqEntries : (as bs : List (String × Document)) → Decidable (as = bs)
  | [], [] => isTrue rfl
  | (name, a) :: as, (name', b) :: bs =>
      haveI := a.decEq b
      decEqCons (decidable_of_iff (name = name' ∧ a = b) (by simp)) (decEqEntries as bs)
  | [], _ :: _ | _ :: _, [] => isFalse nofun

end

instance : DecidableEq Document := Document.decEq

end DocPath
