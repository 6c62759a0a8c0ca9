import DocPath.Entries
import DocPath.Gzip.Basic
import DocPath.Store.FileName

/-! Directories: files under their names, and what the files hold. -/

namespace DocPath

/-- What a file holds: a text, a text that is compressed, or bytes that are neither. -/
inductive Content where
  | text (text : String)
  | packed (text : String)
  | bytes (data : List UInt8)
deriving DecidableEq

namespace Content

/-- The text that bytes stand for in UTF-8. -/
def decode? (data : List UInt8) : Option String := String.fromUTF8? ⟨data.toArray⟩

/-- What bytes hold. Compressed data is told by its mark. -/
def ofBytes (data : List UInt8) : Content :=
  if Gzip.mark.isPrefixOf data then
    match (Gzip.decode? data).bind decode? with
    | some s => .packed s
    | none => .bytes data
  else
    match decode? data with
    | some s => .text s
    | none => .bytes data

def toBytes : Content → List UInt8
  | .text s => s.toUTF8.toList
  | .packed s => Gzip.encode s.toUTF8.toList
  | .bytes data => data

end Content

/-- Files go into the directory itself, or into folders of it. -/
structure Directory where
  files : List (String × Content)
  folders : List String

namespace Directory

def empty : Directory := ⟨[], []⟩

def get? (d : Directory) (name : String) : Option Content := d.files.lookup name

def put (d : Directory) (name : String) (content : Content) : Directory :=
  { d with files := putEntry name content d.files }

def erase (d : Directory) (name : String) : Directory :=
  { d with files := dropEntry name d.files }

/-- Whether there can be a file of this name. -/
def canHold (d : Directory) (name : String) : Bool :=
  FileName.isValid name && (FileName.folder? name).all d.folders.contains

/-- Moves a file to another name, over the file that has it. -/
def rename (d : Directory) (old new : String) : Directory :=
  match d.get? old with
  | some content => (d.erase old).put new content
  | none => d

/-- The listing of a directory: its files in the order of their names, without hidden ones. -/
def sorted (d : Directory) : List (String × Content) :=
  (d.files.filter fun e => !FileName.isHidden e.1).mergeSort fun a b => a.1 ≤ b.1

@[simp] theorem get?_put_self (d : Directory) (name : String) (content : Content) :
    (d.put name content).get? name = some content :=
  lookup_putEntry_self ..

theorem get?_put_of_ne {name other : String} (h : other ≠ name) (d : Directory)
    (content : Content) : (d.put name content).get? other = d.get? other :=
  lookup_putEntry_of_ne h ..

@[simp] theorem get?_erase_self (d : Directory) (name : String) :
    (d.erase name).get? name = none :=
  lookup_dropEntry_self ..

theorem get?_erase_of_ne {name other : String} (h : other ≠ name) (d : Directory) :
    (d.erase name).get? other = d.get? other :=
  lookup_dropEntry_of_ne h ..

theorem mem_sorted_iff {d : Directory} {e : String × Content} :
    e ∈ d.sorted ↔ e ∈ d.files ∧ FileName.isHidden e.1 = false := by
  rw [sorted, (List.mergeSort_perm _ _).mem_iff, List.mem_filter, Bool.not_eq_true']

end Directory

end DocPath
