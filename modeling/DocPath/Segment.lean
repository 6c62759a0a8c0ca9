import DocPath.Destructor.Basic

/-! Segments: the entries of a literal path. -/

namespace DocPath

/-- A segment selects one child, or spreads a container over a destructuring expression. -/
inductive Segment where
  | key (k : Key)
  | destructor (d : Destructor)

namespace Segment

/-- Segments that render alike address alike in an object and match alike. -/
def render : Segment → String
  | .key k => k.render
  | .destructor d => d.source

def index? : Segment → Option Nat
  | .key (.index n) => some n
  | _ => none

def isIndex (s : Segment) : Bool := s.index?.isSome

def destructor? : Segment → Option Destructor
  | .destructor d => some d
  | _ => none

instance : BEq Segment where
  beq
    | .key k, .key l => k == l
    | .destructor d, .destructor e => d == e
    | _, _ => false

end Segment

/-- The text of a literal path: its segments joined by dots. -/
def joinSegments (segments : List Segment) : String :=
  ".".intercalate (segments.map Segment.render)

/-- The keys up to the first destructuring expression, and that expression. A walk through a
document ends there, so what follows it is not looked at. -/
def route : List Segment → List Key × Option Destructor
  | [] => ([], none)
  | .destructor d :: _ => ([], some d)
  | .key k :: rest => (k :: (route rest).1, (route rest).2)

theorem route_map_key (keys : List Key) : route (keys.map .key) = (keys, none) := by
  induction keys with
  | nil => rfl
  | cons k keys ih => simp [route, ih]

theorem route_append_destructor (keys : List Key) (d : Destructor) (rest : List Segment) :
    route (keys.map .key ++ .destructor d :: rest) = (keys, some d) := by
  induction keys with
  | nil => rfl
  | cons k keys ih => simp [route, ih]

end DocPath
