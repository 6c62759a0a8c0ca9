import DocPath.Entries
import DocPath.Number.Basic
import DocPath.Text.Numeral

/-! Documents, nested objects and arrays over scalars, and their values along lists of keys. A
null counts as absent for reading, and a write that cannot be placed is dropped. -/

namespace DocPath

/-! ## Keys -/

/-- One step from a document to a child of it. -/
inductive Key where
  | name (text : String)
  | index (n : Nat)
deriving DecidableEq

namespace Key

/-- A name of digits alone is an index, as long as it fits a machine word. -/
def ofName (text : String) : Key :=
  match Numeral.word? text.toList with
  | some n => .index n
  | none => .name text

/-- Objects are addressed by this text, with indices in decimal. -/
def render : Key → String
  | .name text => text
  | .index n => toString n

def isIndex : Key → Bool
  | .index _ => true
  | .name _ => false

theorem ofName_render_index {n : Nat} (h : n < Numeral.wordLimit) :
    ofName (render (.index n)) = .index n := by
  simp [ofName, render, Numeral.word?_toDigits h]

theorem index_inj_of_render {m n : Nat} (h : render (.index m) = render (.index n)) : m = n := by
  have hd := congrArg (fun s => Numeral.natural? s.toList) h
  simpa [render, Numeral.natural?_toDigits] using hd

end Key

/-! ## Documents -/

/-- Objects list their entries in order. -/
inductive Document where
  | null
  | bool (value : Bool)
  | number (value : Number)
  | text (value : String)
  | array (items : List Document)
  | object (entries : List (String × Document))

namespace Document

def isNull : Document → Bool
  | null => true
  | _ => false

def isContainer : Document → Bool
  | array _ | object _ => true
  | _ => false

/-- An object from entries that may repeat a key. A repeated key keeps its first place and
takes its last value. -/
def ofEntries (entries : List (String × Document)) : Document :=
  object (entries.foldl (fun acc e => putEntry e.1 e.2 acc) [])

/-! ## One step -/

/-- Objects have a child under the text of any key, arrays at an index only. -/
def child? : Document → Key → Option Document
  | object entries, key => entries.lookup key.render
  | array items, .index n => items[n]?
  | _, _ => none

/-- Whether a key leads to nothing, or to a null. -/
def lacks (doc : Document) (key : Key) : Bool :=
  match doc.child? key with
  | some value => value.isNull
  | none => true

/-- One write lengthens an array by no more than this. -/
def paddingLimit : Nat := 65536

/-- The array with its element `index` set, after padding with nulls as far as needed and
allowed. -/
def setItem (items : List Document) (index : Nat) (value : Document) : List Document :=
  if index < items.length then items.set index value
  else if index + 1 < Numeral.wordLimit && index + 1 - items.length ≤ paddingLimit then
    items ++ List.replicate (index - items.length) null ++ [value]
  else items

/-- Puts a child in place. Arrays take no names and scalars take nothing. -/
def assign (doc : Document) (key : Key) (value : Document) : Document :=
  match doc, key with
  | object entries, key => object (putEntry key.render value entries)
  | array items, .index n => array (setItem items n value)
  | doc, _ => doc

/-- Takes a child out. Later elements of an array move up. -/
def unassign (doc : Document) (key : Key) : Document :=
  match doc, key with
  | object entries, key => object (dropEntry key.render entries)
  | array items, .index n => array (items.eraseIdx n)
  | doc, _ => doc

/-- The container that a write goes on in: the child if it is one, else a fresh array or
object. -/
def containerAt (doc : Document) (key : Key) (indexed : Bool) : Document :=
  match doc.child? key with
  | some value => if value.isContainer then value else fresh
  | none => fresh
where
  fresh : Document := if indexed then array [] else object []

/-! ## Whole routes -/

/-- The value at the end of a route, null or not. -/
def find? (doc : Document) : List Key → Option Document
  | [] => some doc
  | key :: rest => (doc.child? key).bind fun value => value.find? rest

/-- The value at the end of a route. -/
def get? (doc : Document) (keys : List Key) : Option Document :=
  (doc.find? keys).filter fun value => !value.isNull

/-- Writes at the end of a route, with containers created on the way. Writing null into a
place that lacks a value does nothing. -/
def put (doc : Document) (keys : List Key) (value : Document) : Document :=
  match keys with
  | [] => doc
  | key :: rest =>
      if value.isNull && doc.lacks key then doc
      else
        match rest with
        | [] => doc.assign key value
        | next :: _ => doc.assign key ((doc.containerAt key next.isIndex).put rest value)

/-- Changes the container at the end of a route, with containers created on the way. With
`cautious` set, nothing is done where a value is lacking. -/
def reshape (doc : Document) (cautious : Bool) (keys : List Key) (f : Document → Document) :
    Document :=
  match keys with
  | [] => f doc
  | key :: rest =>
      if cautious && doc.lacks key then doc
      else
        let indexed := match rest with
          | next :: _ => next.isIndex
          | [] => false
        doc.assign key ((doc.containerAt key indexed).reshape cautious rest f)

/-- Changes what stands at the end of a route, if something does. -/
def modify (doc : Document) (keys : List Key) (f : Document → Document) : Document :=
  match keys with
  | [] => f doc
  | key :: rest =>
      match doc.child? key with
      | some value => doc.assign key (value.modify rest f)
      | none => doc

/-- Removes the entry at the end of a route. -/
def remove (doc : Document) (keys : List Key) : Document :=
  match keys with
  | [] => doc
  | [key] => doc.unassign key
  | key :: rest =>
      match doc.child? key with
      | some value => doc.assign key (value.remove rest)
      | none => doc

/-- Whether there is an entry at the end of a route, be it null. -/
def holds (doc : Document) (keys : List Key) : Bool :=
  match keys with
  | [] => false
  | [key] => (doc.child? key).isSome
  | key :: rest => (doc.child? key).any fun value => value.holds rest

end Document

end DocPath
