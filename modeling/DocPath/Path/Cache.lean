import DocPath.Destructor.Access
import DocPath.Path.Edit

/-! The cache of compiled paths, and computations that compile through it. A cache is a memo: a
table of bounded size that forgets what was used longest ago. -/

namespace DocPath

/-! ## Memos -/

/-- The entries of a memo, the one used last in front. -/
structure Memo (κ : Type) (α : Type) where
  capacity : Nat
  entries : List (κ × α)

namespace Memo

variable {κ α : Type} [DecidableEq κ]

def empty (capacity : Nat) : Memo κ α := ⟨capacity, []⟩

def find? (m : Memo κ α) (key : κ) : Option α :=
  (m.entries.find? fun e => e.1 = key).map (·.2)

/-- The memo after `key` has been stored, or used again, with the given value. -/
def store (m : Memo κ α) (key : κ) (value : α) : Memo κ α :=
  { m with entries := ((key, value) :: m.entries.filter fun e => e.1 ≠ key).take m.capacity }

end Memo

/-! ## Compiled paths -/

/-- What a path is remembered by: the text of a pattern, or the rendered segments of a list.
The text `a.*` is kept apart from the list of the one name `a.*`. -/
inductive CacheKey where
  | text (text : String)
  | segments (rendered : List String)
deriving DecidableEq

/-- A compiled path needs no remembering. -/
def Pattern.cacheKey? : Pattern → Option CacheKey
  | .text t => some (.text t)
  | .segments raw => some (.segments (raw.map Segment.render))
  | .path _ => none

def Path.cacheKey : Path → CacheKey
  | .pattern text _ => .text text
  | .literal _ segments => .segments (segments.map Segment.render)

/-- The paths compiled so far. -/
abbrev PathCache := Memo CacheKey Path

def PathCache.empty : PathCache := Memo.empty 1000

/-- A computation that may compile patterns through the cache. What was compiled stays in the
cache even if the computation fails later. -/
abbrev Cached := ExceptT PathError (StateM PathCache)

/-- Compiles a pattern, or recalls the path compiled before under the same key. -/
def Cached.compile (pattern : Pattern) : Cached Path :=
  match pattern.cacheKey? with
  | none => liftExcept (Path.compile pattern)
  | some key => do
      let cache ← get
      match cache.find? key with
      | some path =>
          set (cache.store key path)
          return path
      | none =>
          let path ← liftExcept (Path.compile pattern)
          modify fun cache => cache.store key path
          return path
where
  liftExcept (result : Except ParseError Path) : Cached Path :=
    match result with
    | .ok path => pure path
    | .error fault => throw (.parse fault)

/-- The child of a path on the way to a pattern. The path is checked before the pattern is
compiled. -/
def Path.nearestChildBy (path : Path) (pattern : Pattern) : Cached Path := do
  let _ ← path.literalSegments .nearestChild
  let target ← Cached.compile pattern
  path.nearestChild target

namespace Document

/-! ## Access by pattern -/

def getIn (doc : Document) (pattern : Pattern) : Cached (Option Document) := do
  let path ← Cached.compile pattern
  let segments ← path.literalSegments .getIn
  return doc.getAt segments

def setIn (doc : Document) (pattern : Pattern) (value : Document) : Cached Document := do
  let path ← Cached.compile pattern
  let segments ← path.literalSegments .setIn
  return doc.setAt segments value

def deleteIn (doc : Document) (pattern : Pattern) : Cached Document := do
  let path ← Cached.compile pattern
  let segments ← path.literalSegments .deleteIn
  return doc.deleteAt segments

def existIn (doc : Document) (pattern : Pattern) (start : Nat) : Cached Bool := do
  let path ← Cached.compile pattern
  let segments ← path.literalSegments .existIn
  return doc.existsAt segments start

end Document

end DocPath
