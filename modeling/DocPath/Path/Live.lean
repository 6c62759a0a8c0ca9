import DocPath.Path.Cache

/-! Live paths: paths under edit, which remember the matches they have been asked for. -/

namespace DocPath

/-- What a path has answered since its last edit. -/
structure LivePath where
  path : Path
  records : Memo CacheKey MatchRecord
  inclusions : Memo CacheKey Bool

namespace LivePath

/-- Each kind of answer is remembered for this many arguments. -/
def capacity : Nat := 200

/-- A path that has not been asked anything yet. -/
def fresh (path : Path) : LivePath := ⟨path, .empty capacity, .empty capacity⟩

/-- The match of a path with a pattern, and the path with the answer remembered. A remembered
answer is given without asking again. -/
def matchRecord (live : LivePath) (pattern : Pattern) : Cached (MatchRecord × LivePath) := do
  let other ← Cached.compile pattern
  let record ← match live.records.find? other.cacheKey with
    | some record => pure record
    | none => liftM (live.path.matchRecord other)
  return (record, { live with records := live.records.store other.cacheKey record })

/-- Whether a path includes a pattern. Match patterns are refused before anything is
recalled. -/
def includes (live : LivePath) (pattern : Pattern) : Cached (Bool × LivePath) := do
  let other ← Cached.compile pattern
  if other.isMatch then throw (.wrongKind other.entire .includes)
  let included ← match live.inclusions.find? other.cacheKey with
    | some included => pure included
    | none => liftM (live.path.includes other)
  return (included, { live with inclusions := live.inclusions.store other.cacheKey included })

/-- Whether a path matches a name or its alias. -/
def matchAlias (live : LivePath) (name aliased : Pattern) : Cached (Bool × LivePath) := do
  let (first, live) ← live.matchRecord name
  let (second, live) ← live.matchRecord aliased
  return (live.path.decideAlias first second, live)

/-! ## Edits, which forget all answers -/

def push (live : LivePath) (pattern : Pattern) : Except PathError LivePath :=
  (live.path.push pattern).map fresh

def pop (live : LivePath) : Except PathError (Option Segment × LivePath) :=
  live.path.pop.map fun (segment, path) => (segment, fresh path)

def splice (live : LivePath) (start count : Nat) (items : List Pattern) :
    Except PathError (List Segment × LivePath) :=
  (live.path.splice start count items).map fun (removed, path) => (removed, fresh path)

end LivePath

end DocPath
