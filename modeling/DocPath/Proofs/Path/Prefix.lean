import DocPath.Path.Edit
import Mathlib.Data.List.Infix

/-! # Prefixes of paths

Segments are compared by what they are rendered as. A literal path includes the paths that are
prefixes of it in that sense, and from a path it includes it is reached child by child. -/

namespace DocPath

namespace Path

variable {p q r target : Path}

/-- The texts that the segments of a path are compared by. -/
def rendered (path : Path) : List String := path.segments.map Segment.render

def Includes (path other : Path) : Prop := path.includes other = .ok true

def Matches (path other : Path) : Prop :=
  ∃ record, path.matchRecord other = .ok record ∧ record.matched = true

@[simp] theorem length_rendered (path : Path) : path.rendered.length = path.segments.length :=
  List.length_map ..

/-! ## The order -/

theorem includes_literal (hp : p.isMatch = false) (hq : q.isMatch = false) :
    p.includes q = .ok (q.rendered.isPrefixOf p.rendered) := by
  cases p with
  | pattern => cases hp
  | literal entire segments =>
      cases q with
      | pattern => cases hq
      | literal entire' start => rfl

theorem matchRecord_literal (hp : p.isMatch = false) (hq : q.isMatch = false) :
    p.matchRecord q = .ok (matchSegments p.segments q.segments) := by
  cases p with
  | pattern => cases hp
  | literal entire segments =>
      cases q with
      | pattern => cases hq
      | literal entire' others => rfl

theorem matched_matchSegments {left right : List Segment} :
    (matchSegments left right).matched = true ↔
      left.map Segment.render = right.map Segment.render := by
  rw [matchSegments]
  split
  case isTrue h => exact iff_of_true rfl h
  case isFalse h => exact iff_of_false Bool.false_ne_true h

theorem Includes.isMatch_eq_false (h : p.Includes q) : q.isMatch = false := by
  cases q with
  | literal => rfl
  | pattern => cases p <;> cases h

theorem includes_iff (hp : p.isMatch = false) (hq : q.isMatch = false) :
    p.Includes q ↔ q.rendered <+: p.rendered := by
  rw [Includes, includes_literal hp hq, Except.ok.injEq, List.isPrefixOf_iff_prefix]

theorem matches_iff (hp : p.isMatch = false) (hq : q.isMatch = false) :
    p.Matches q ↔ p.rendered = q.rendered := by
  rw [Matches, matchRecord_literal hp hq]
  simp [matched_matchSegments, rendered]

theorem includes_refl (hp : p.isMatch = false) : p.Includes p :=
  (includes_iff hp hp).mpr (List.prefix_refl _)

theorem Includes.trans (hp : p.isMatch = false) (hpq : p.Includes q) (hqr : q.Includes r) :
    p.Includes r := by
  have hq := hpq.isMatch_eq_false
  have hr := hqr.isMatch_eq_false
  apply (includes_iff hp hr).mpr
  exact ((includes_iff hq hr).mp hqr).trans ((includes_iff hp hq).mp hpq)

/-- Two paths include each other just if they match. -/
theorem includes_and_includes_iff (hp : p.isMatch = false) (hq : q.isMatch = false) :
    p.Includes q ∧ q.Includes p ↔ p.Matches q := by
  rw [includes_iff hp hq, includes_iff hq hp, matches_iff hp hq]
  constructor
  · rintro ⟨hqp, hpq⟩
    exact hpq.eq_of_length_le hqp.length_le
  · intro h
    rw [h]
    exact ⟨List.prefix_refl _, List.prefix_refl _⟩

theorem Includes.length_le (hp : p.isMatch = false) (h : p.Includes q) :
    q.segments.length ≤ p.segments.length := by
  simpa using ((includes_iff hp h.isMatch_eq_false).mp h).length_le

/-- Of two paths one of which includes the other, it is the length that tells them apart. -/
theorem Includes.matches_iff (hp : p.isMatch = false) (h : p.Includes q) :
    q.Matches p ↔ p.segments.length ≤ q.segments.length := by
  have hq := h.isMatch_eq_false
  have hprefix := (includes_iff hp hq).mp h
  rw [Path.matches_iff hq hp]
  constructor
  · intro heq
    have hlength := congrArg List.length heq
    rw [length_rendered, length_rendered] at hlength
    exact Nat.le_of_eq hlength.symm
  · intro hle
    exact hprefix.eq_of_length_le (by simpa using hle)

/-! ## Parts and extensions -/

theorem slice_literal (hp : p.isMatch = false) (low high : Bound) : p.slice low high =
    .ok (ofSegments ((p.segments.take (high.stop p.segments.length)).drop low.start)) := by
  cases p with
  | pattern => cases hp
  | literal entire segments => rfl

theorem concat_literal (hp : p.isMatch = false) (pattern : Pattern) :
    p.concat pattern = .ok (ofSegments (p.segments ++ contribution pattern)) := by
  cases p with
  | pattern => cases hp
  | literal entire segments => rfl

theorem rendered_ofSegments (segments : List Segment) :
    (ofSegments segments).rendered = segments.map Segment.render :=
  rfl

/-- A path includes another one just if its part of the same length matches that one. -/
theorem includes_iff_matches_take (hp : p.isMatch = false) (hq : q.isMatch = false) :
    p.Includes q ↔ (ofSegments (p.segments.take q.segments.length)).Matches q ∧
      q.segments.length ≤ p.segments.length := by
  have hfront : (ofSegments (p.segments.take q.segments.length)).rendered =
      p.rendered.take q.rendered.length := by
    rw [rendered_ofSegments, List.map_take, length_rendered]
    rfl
  rw [includes_iff hp hq, matches_iff rfl hq, hfront, List.prefix_iff_eq_take]
  constructor
  · intro h
    refine ⟨h.symm, ?_⟩
    simpa using (List.prefix_iff_eq_take.mpr h).length_le
  · rintro ⟨h, -⟩
    exact h.symm

theorem includes_append (hp : p.isMatch = false) (more : List Segment) :
    (ofSegments (p.segments ++ more)).Includes p := by
  rw [includes_iff rfl hp, rendered_ofSegments, List.map_append]
  exact List.prefix_append _ _

/-! ## Children on the way to a path -/

theorem nearestChild_of_length_le (hp : p.isMatch = false)
    (h : target.segments.length ≤ p.segments.length) : p.nearestChild target = .ok p := by
  cases p with
  | pattern => cases hp
  | literal entire segments =>
      have hnone : target.segments[segments.length]? = none := List.getElem?_eq_none h
      simp only [nearestChild, literalSegments, bind, Except.bind, hnone]
      rfl

theorem nearestChild_of_getElem? (hp : p.isMatch = false) {next : Segment}
    (h : target.segments[p.segments.length]? = some next) :
    p.nearestChild target = .ok (ofSegments (p.segments ++ [next])) := by
  cases p with
  | pattern => cases hp
  | literal entire segments =>
      have hsome : target.segments[segments.length]? = some next := h
      simp only [nearestChild, literalSegments, bind, Except.bind, hsome]
      rfl

theorem nearestChild_of_includes (ht : target.isMatch = false) (h : target.Includes p) :
    ∃ child, p.nearestChild target = .ok child ∧ target.Includes child ∧
      child.segments.length = min (p.segments.length + 1) target.segments.length := by
  have hp := h.isMatch_eq_false
  have hle := h.length_le ht
  cases hnext : target.segments[p.segments.length]? with
  | none =>
      have hlength := List.getElem?_eq_none_iff.mp hnext
      exact ⟨p, nearestChild_of_length_le hp hlength, h, by omega⟩
  | some next =>
      obtain ⟨hlt, hget⟩ := List.getElem?_eq_some_iff.mp hnext
      refine ⟨ofSegments (p.segments ++ [next]), nearestChild_of_getElem? hp hnext, ?_, ?_⟩
      · have hprefix : p.rendered <+: target.rendered := (includes_iff ht hp).mp h
        have hshort : p.rendered.length < target.rendered.length := by
          rwa [length_rendered, length_rendered]
        have hrender : target.rendered.get ⟨p.rendered.length, hshort⟩ = next.render := by
          simp [rendered, hget]
        rw [includes_iff ht rfl, rendered_ofSegments, List.map_append, List.map_singleton,
          ← hrender]
        exact List.concat_get_prefix hprefix hshort
      · change (p.segments ++ [next]).length = _
        rw [List.length_append, List.length_singleton]
        omega

/-- The path after some steps from child to child on the way to a target. -/
def approach (path target : Path) : Nat → Except PathError Path
  | 0 => .ok path
  | n + 1 => (path.approach target n).bind (·.nearestChild target)

theorem approach_of_includes (ht : target.isMatch = false) (h : target.Includes p) (n : Nat) :
    ∃ near, p.approach target n = .ok near ∧ target.Includes near ∧
      near.segments.length = min (p.segments.length + n) target.segments.length := by
  induction n with
  | zero =>
      have hle := h.length_le ht
      exact ⟨p, rfl, h, by omega⟩
  | succ n ih =>
      obtain ⟨near, hnear, hincludes, hlength⟩ := ih
      obtain ⟨child, hchild, hincluded, hlength'⟩ := nearestChild_of_includes ht hincludes
      refine ⟨child, ?_, hincluded, by omega⟩
      rw [approach, hnear]
      exact hchild

/-- Inclusion is the order by prefixes that matching, parts and extensions agree with. A child on
the way to a path is one segment nearer to it, and the path is reached after as many steps as
segments were missing. -/
theorem includes_order_and_approach (hp : p.isMatch = false) (hq : q.isMatch = false)
    (ht : target.isMatch = false) :
    (∃ included front record, p.includes q = .ok included ∧
      p.slice .unbounded (.excluded q.segments.length) = .ok front ∧
      front.matchRecord q = .ok record ∧
      (included = true ↔ record.matched = true ∧ q.segments.length ≤ p.segments.length)) ∧
    p.Includes p ∧
    (p.Includes q → q.Includes r → p.Includes r) ∧
    (p.Includes q ∧ q.Includes p ↔ p.Matches q) ∧
    (∃ longer, p.concat (.path q) = .ok longer ∧ longer.Includes p) ∧
    (target.Includes p →
      (∃ child, p.nearestChild target = .ok child ∧ target.Includes child ∧
        child.segments.length = min (p.segments.length + 1) target.segments.length) ∧
      ∀ n, ∃ near, p.approach target n = .ok near ∧
        (near.Matches target ↔ target.segments.length - p.segments.length ≤ n) ∧
        (near.Matches target → near.nearestChild target = .ok near)) := by
  refine ⟨?_, includes_refl hp, fun hpq hqr => hpq.trans hp hqr,
    includes_and_includes_iff hp hq, ?_, ?_⟩
  · refine ⟨_, _, _, includes_literal hp hq, slice_literal hp _ _,
      matchRecord_literal rfl hq, ?_⟩
    have hiff := includes_iff_matches_take hp hq
    rw [includes_iff hp hq, matches_iff rfl hq] at hiff
    rw [List.isPrefixOf_iff_prefix, matched_matchSegments]
    exact hiff
  · exact ⟨_, concat_literal hp _, includes_append hp _⟩
  · intro h
    refine ⟨nearestChild_of_includes ht h, fun n => ?_⟩
    obtain ⟨near, hnear, hincludes, hlength⟩ := approach_of_includes ht h n
    have hle := h.length_le ht
    have hmatches := hincludes.matches_iff ht
    refine ⟨near, hnear, ?_, fun hreached => ?_⟩
    · rw [hmatches]
      omega
    · exact nearestChild_of_length_le hincludes.isMatch_eq_false (hmatches.mp hreached)

/-- Where the paths differ their segments are rendered alike: one has a name for an index. -/
theorem includes_order_and_approach_by_names :
    let p := ofSegments [.key (.name "a"), .key (.name "3")]
    let q := ofSegments [.key (.name "a"), .key (.index 3)]
    let target := ofSegments [.key (.name "a"), .key (.index 3), .key (.name "b"), .key (.index 0)]
    let first := ofSegments [.key (.name "a"), .key (.name "3"), .key (.name "b")]
    let second := ofSegments [.key (.name "a"), .key (.name "3"), .key (.name "b"), .key (.index 0)]
    p.isMatch = false ∧ q.isMatch = false ∧ target.isMatch = false ∧
      p.Includes q ∧ q.Includes p ∧ p.Matches q ∧ target.Includes p ∧
      p.approach target 1 = .ok first ∧ ¬ first.Matches target ∧
      p.approach target 2 = .ok second ∧ second.Matches target ∧
      second.nearestChild target = .ok second := by
  intro p q target first second
  obtain ⟨-, -, -, hmatches, -, happroach⟩ := includes_order_and_approach
    (r := q) (rfl : p.isMatch = false) (rfl : q.isMatch = false) (rfl : target.isMatch = false)
  have hpq : p.Includes q ∧ q.Includes p := ⟨rfl, rfl⟩
  have hp : target.Includes p := rfl
  have hone : p.approach target 1 = .ok first := rfl
  have htwo : p.approach target 2 = .ok second := rfl
  obtain ⟨near, hnear, hmissing, -⟩ := (happroach hp).2 1
  obtain rfl := Except.ok.inj (hone.symm.trans hnear)
  obtain ⟨near, hnear, hreached, hstays⟩ := (happroach hp).2 2
  obtain rfl := Except.ok.inj (htwo.symm.trans hnear)
  have hthere : second.Matches target := hreached.mpr (by decide)
  exact ⟨rfl, rfl, rfl, hpq.1, hpq.2, hmatches.mp hpq, hp, hone, mt hmissing.mp (by decide), htwo,
    hthere, hstays hthere⟩

end Path

end DocPath
