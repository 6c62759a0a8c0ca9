import DocPath.Destructor.Basic
import DocPath.Document.Basic
import DocPath.Segment

/-! Documents seen through destructuring expressions, and along lists of segments. -/

namespace DocPath

namespace Destructor

/-- The flat value before any rule has been followed. -/
def blank (d : Destructor) : Document :=
  match d.kind with
  | .object => .object []
  | .array => .array []

/-- The flat value of a document. Rules that lead to nothing are skipped. -/
def read (d : Destructor) (source : Document) : Document :=
  d.rules.foldl (fun flat rule =>
    match source.get? rule.path with
    | some value => flat.put rule.key value
    | none => flat) d.blank

/-- Spreads a flat value over a document. What no rule covers is left alone. -/
def write (d : Destructor) (target flat : Document) : Document :=
  d.rules.foldl (fun target rule =>
    match flat.get? rule.key with
    | some value => target.put rule.path value
    | none => target) target

/-- Removes what the rules point at, one after the other. -/
def remove (d : Destructor) (target : Document) : Document :=
  d.rules.foldl (fun target rule => target.remove rule.path) target

def holds (d : Destructor) (source : Document) : Bool :=
  d.rules.all fun rule => source.holds rule.path

end Destructor

namespace Document

/-- Reads along segments. A destructuring expression reads even a null or a scalar. -/
def getAt (doc : Document) (segments : List Segment) : Option Document :=
  match route segments with
  | (keys, none) => doc.get? keys
  | (keys, some d) => (doc.find? keys).map d.read

/-- Writes along segments. -/
def setAt (doc : Document) (segments : List Segment) (value : Document) : Document :=
  match route segments with
  | (keys, none) => doc.put keys value
  | (keys, some d) => doc.reshape value.isNull keys fun target => d.write target value

/-- Removes along segments. -/
def deleteAt (doc : Document) (segments : List Segment) : Document :=
  match route segments with
  | (keys, none) => doc.remove keys
  | (keys, some d) => doc.modify keys d.remove

/-- Whether the segments from `start` on lead to something, in a document that stands for the
value at the segments before. -/
def existsAt (doc : Document) (segments : List Segment) (start : Nat) : Bool :=
  match route (segments.drop start) with
  | (keys, none) => doc.holds keys
  | (keys, some d) => (doc.find? keys).any d.holds

end Document

end DocPath
