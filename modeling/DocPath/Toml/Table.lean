import DocPath.Entries

/-! Tables of settings, as they are put together line by line. A name is given a value once;
what has been closed is not opened again. -/

namespace DocPath.Toml

/-- How a table came up: under a header of its own, in the header of another table, or in a
name with dots. -/
inductive Origin where
  | header
  | passed
  | dotted
deriving DecidableEq

/-- What stands under a name. Values of other types are read, but not kept. Of an array of
tables, the last one is open. -/
inductive Item where
  | text (value : String)
  | integer (value : Int)
  | bool (value : Bool)
  | other
  | table (origin : Origin) (entries : List (String × Item))
  | tables (last : List (String × Item))

abbrev Entries := List (String × Item)

namespace Entries

/-- Edits the table at a path below a table. Tables that are missing on the way come up as
`fresh`. A name with dots leads into no table that has a header. -/
def edit (fresh : Origin) (f : Origin → Entries → Option Entries) :
    List String → Origin → Entries → Option Entries
  | [], origin, entries => f origin entries
  | key :: path, _, entries =>
      match entries.lookup key with
      | none => (edit fresh f path fresh []).map fun inner =>
          putEntry key (.table fresh inner) entries
      | some (.table origin inner) =>
          if fresh = .dotted && origin = .header then none
          else (edit fresh f path origin inner).map fun inner =>
            putEntry key (.table origin inner) entries
      | some (.tables last) => (edit fresh f path .header last).map fun last =>
          putEntry key (.tables last) entries
      | some _ => none

/-- Gives a value to the name `key` at a path of dotted names. Dotted names and plain ones do
not mix in one table. -/
def assign (path : List String) (key : String) (item : Item) (entries : Entries) :
    Option Entries :=
  let insert (origin : Origin) (inner : Entries) : Option Entries :=
    if (origin = .dotted) = path.isEmpty || (inner.lookup key).isSome then none
    else some (putEntry key item inner)
  edit .dotted insert path .header entries

/-- Gives a value to a name below the header that was opened last. -/
def assignBelow (header path : List String) (key : String) (item : Item) (root : Entries) :
    Option Entries :=
  edit .passed (fun _ inner => assign path key item inner) header .header root

/-- Opens the table of a header, which may have been passed before. -/
def openTable (path : List String) (key : String) (root : Entries) : Option Entries :=
  let insert (_ : Origin) (inner : Entries) : Option Entries :=
    match inner.lookup key with
    | none => some (putEntry key (.table .header []) inner)
    | some (.table .passed entries) => some (putEntry key (.table .header entries) inner)
    | some _ => none
  edit .passed insert path .header root

/-- Opens the next table of an array. -/
def openNext (path : List String) (key : String) (root : Entries) : Option Entries :=
  let insert (_ : Origin) (inner : Entries) : Option Entries :=
    match inner.lookup key with
    | none | some (.tables _) => some (putEntry key (.tables []) inner)
    | some _ => none
  edit .passed insert path .header root

end Entries

end DocPath.Toml
