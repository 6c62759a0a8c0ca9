import DocPath.Path.Basic

/-! Literal paths as sequences: joining, cutting and editing them. -/

namespace DocPath

/-- One end of a range of positions. -/
inductive Bound where
  | included (position : Nat)
  | excluded (position : Nat)
  | unbounded

/-- The first position from a lower bound on. -/
def Bound.start : Bound → Nat
  | .included n => n
  | .excluded n => n + 1
  | .unbounded => 0

/-- The first position past an upper bound, in a sequence of `size` entries. -/
def Bound.stop (size : Nat) : Bound → Nat
  | .included n => n + 1
  | .excluded n => n
  | .unbounded => size

namespace Path

/-- The path with the segments of a pattern behind its own. -/
def concat (path : Path) (pattern : Pattern) : Except PathError Path := do
  let segments ← path.literalSegments .concat
  return ofSegments (segments ++ contribution pattern)

/-- The part of a path between two bounds. Positions past its end are taken as its end. -/
def slice (path : Path) (low high : Bound) : Except PathError Path := do
  let segments ← path.literalSegments .slice
  return ofSegments ((segments.take (high.stop segments.length)).drop low.start)

/-- The path without its last segment. -/
def parent (path : Path) : Except PathError Path :=
  path.slice .unbounded (.excluded (path.segments.length - 1))

def push (path : Path) (pattern : Pattern) : Except PathError Path := do
  let segments ← path.literalSegments .push
  return ofSegments (segments ++ contribution pattern)

/-- The last segment, if there is one, and the path without it. -/
def pop (path : Path) : Except PathError (Option Segment × Path) := do
  let segments ← path.literalSegments .pop
  return (segments.getLast?, ofSegments segments.dropLast)

/-- Replaces `count` segments from `start` on, and hands them back. -/
def splice (path : Path) (start count : Nat) (items : List Pattern) :
    Except PathError (List Segment × Path) := do
  let segments ← path.literalSegments .splice
  let before := segments.take start
  let behind := segments.drop start
  return (behind.take count,
    ofSegments (before ++ items.flatMap contribution ++ behind.drop count))

/-- The child of a path on the way to a compiled target, or the path itself when the target is
not deeper. -/
def nearestChild (path : Path) (target : Path) : Except PathError Path := do
  let segments ← path.literalSegments .nearestChild
  match target.segments[segments.length]? with
  | some next => return ofSegments (segments ++ [next])
  | none => return path

end Path

end DocPath
