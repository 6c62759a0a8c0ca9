import DocPath.Path.Edit

/-! # Editing paths

One edit after the other. On a literal path each edit succeeds, and does to the segments what it
says. -/

namespace DocPath

/-- What can be made of a path. -/
inductive Edit where
  | push (pattern : Pattern)
  | pop
  | splice (start count : Nat) (items : List Pattern)
  | concat (pattern : Pattern)
  | slice (low high : Bound)
  | parent
  | nearestChild (target : Path)

namespace Edit

/-- The path that is made of a path. -/
def apply (path : Path) : Edit → Except PathError Path
  | push pattern => path.push pattern
  | pop => path.pop.map Prod.snd
  | splice start count items => (path.splice start count items).map Prod.snd
  | concat pattern => path.concat pattern
  | slice low high => path.slice low high
  | parent => path.parent
  | nearestChild target => path.nearestChild target

/-- What an edit makes of a list of segments. -/
def edited (segments : List Segment) : Edit → List Segment
  | push pattern | concat pattern => segments ++ Path.contribution pattern
  | pop | parent => segments.dropLast
  | splice start count items =>
      segments.take start ++ items.flatMap Path.contribution ++ (segments.drop start).drop count
  | slice low high => (segments.take (high.stop segments.length)).drop low.start
  | nearestChild target => segments ++ (target.segments[segments.length]?).toList

/-- A literal path stays one. -/
theorem apply_literal (edit : Edit) (entire : String) (segments : List Segment) :
    ∃ entire', edit.apply (.literal entire segments) =
      .ok (.literal entire' (edit.edited segments)) := by
  cases edit with
  | push | pop | splice | concat | slice => exact ⟨_, rfl⟩
  | parent =>
      refine ⟨joinSegments segments.dropLast, ?_⟩
      simp only [apply, Path.parent, Path.slice, Path.literalSegments, Path.segments, edited,
        List.dropLast_eq_take]
      rfl
  | nearestChild target =>
      simp only [apply, Path.nearestChild, Path.literalSegments, bind, Except.bind, edited]
      cases target.segments[segments.length]? with
      | none => exact ⟨entire, by rw [Option.toList_none, List.append_nil]; rfl⟩
      | some next => exact ⟨_, rfl⟩

/-- The path behind an edit. An edit that fails leaves the path as it was. -/
def next (path : Path) (edit : Edit) : Path :=
  match edit.apply path with
  | .ok next => next
  | .error _ => path

theorem next_literal (edit : Edit) (entire : String) (segments : List Segment) :
    ∃ entire', edit.next (.literal entire segments) = .literal entire' (edit.edited segments) := by
  obtain ⟨entire', h⟩ := edit.apply_literal entire segments
  exact ⟨entire', by rw [next, h]⟩

end Edit

/-- The paths that come up when one edit is made after the other, from the first one on. -/
def Path.stages (path : Path) : List Edit → List Path
  | [] => [path]
  | edit :: rest => path :: (edit.next path).stages rest

theorem Path.mem_stages (path : Path) (edits : List Edit) : path ∈ path.stages edits := by
  cases edits <;> exact List.mem_cons_self

end DocPath
