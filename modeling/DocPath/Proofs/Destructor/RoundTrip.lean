import DocPath.Proofs.Destructor.Rules
import DocPath.Proofs.Document.Accepts
import Mathlib.Data.List.Basic

/-! # Reading what was spread

The flat value of a document, spread over an empty object, is read back from there. -/

namespace DocPath

namespace Document

/-! ## Values handed over one by one -/

theorem isNull_of_get?_eq_some {doc value : Document} {keys : List Key}
    (h : doc.get? keys = some value) : value.isNull = false := by
  simpa using (Option.filter_eq_some_iff.mp h).2

/-- The route leads to a place that is accepted and still empty. -/
structure Ready (target : Document) (route : List Key) : Prop where
  ne_nil : route ≠ []
  accepted : target.accepts route = true
  empty : target.get? route = none

theorem ready_fresh (indexed : Bool) {key : Key} {rest : List Key}
    (ht : (containerAt.fresh indexed).Takes key) (hr : InReach rest) :
    (containerAt.fresh indexed).Ready (key :: rest) where
  ne_nil := List.cons_ne_nil key rest
  accepted := (accepts_fresh_iff indexed key rest).mpr ⟨ht, hr⟩
  empty := by rw [get?_cons, child?_fresh, Option.bind_none]

/-- A write to the first route leaves the others ready. -/
theorem Ready.put {first route : List Key} {routes : List (List Key)}
    (hc : Compatible (first :: routes)) (hs : ∀ p ∈ first :: routes, ∀ k ∈ p, k.Settled)
    (hmem : route ∈ routes) {target : Document} (h : target.Ready route) (value : Document) :
    (target.put first value).Ready route := by
  have hpart := (List.pairwise_cons.mp hc.parted).1 route hmem
  have hroute := List.mem_cons_of_mem first hmem
  refine ⟨h.ne_nil, ?_, ?_⟩
  · refine accepts_put hpart (hc.alike first List.mem_cons_self route hroute) ?_ h.accepted
    intro k hk k' hk' hrender
    have hlimit : paddingLimit < Numeral.wordLimit := by decide
    have hlt : ∀ n, k = .index n ∨ k' = .index n → n < Numeral.wordLimit := by
      rintro n (rfl | rfl)
      · exact Nat.lt_trans (hc.inReach first List.mem_cons_self n hk) hlimit
      · exact Nat.lt_trans (hc.inReach route hroute n hk') hlimit
    exact Key.eq_of_render_eq (hs first List.mem_cons_self k hk) (hs route hroute k' hk') hlt
      hrender
  · rw [get?_put_of_not_meets hpart]
    exact h.empty

/-- At its place each rule leaves what the rule points at. A rule writes into a document that is
ready for it, and no later one comes near its place. -/
theorem get?_carry {origin place : Rule → List Key} {rules : List Rule}
    (hc : Compatible (rules.map place)) (hs : ∀ p ∈ rules.map place, ∀ k ∈ p, k.Settled)
    {target : Document} (h : ∀ p ∈ rules.map place, target.Ready p) (source : Document) :
    ∀ rule ∈ rules, (carry origin place rules target source).get? (place rule) =
      source.get? (origin rule) := by
  induction rules generalizing target with
  | nil => exact List.forall_mem_nil _
  | cons rule rules ih =>
      have hpart : ∀ later ∈ rules, ¬ Meets (place later) (place rule) := by
        intro later hlater hm
        exact (List.pairwise_cons.mp hc.parted).1 _ (List.mem_map_of_mem hlater) hm.symm
      obtain ⟨hfirst, hothers⟩ := List.forall_mem_cons.mp h
      have hsettled := (List.forall_mem_cons.mp hs).2
      rw [List.forall_mem_cons, carry, List.foldl_cons]
      cases hvalue : source.get? (origin rule) with
      | none =>
          refine ⟨?_, ih hc.tail hsettled hothers⟩
          exact (get?_carry_of_not_meets hpart target source).trans hfirst.empty
      | some value =>
          refine ⟨?_, ih hc.tail hsettled fun p hp => (hothers p hp).put hc hs hp value⟩
          obtain ⟨key, rest, hplace⟩ := List.exists_cons_of_ne_nil hfirst.ne_nil
          have haccepts := hfirst.accepted
          rw [hplace] at haccepts hpart ⊢
          refine (get?_carry_of_not_meets hpart _ source).trans ?_
          rw [get?_put (isNull_of_get?_eq_some hvalue), if_pos haccepts]

end Document

namespace Destructor

open Document

/-! ## Both directions -/

theorem read_congr {d : Destructor} {source source' : Document}
    (h : ∀ rule ∈ d.rules, source.get? rule.path = source'.get? rule.path) :
    d.read source = d.read source' := by
  unfold read
  apply List.foldl_ext
  intro flat rule hrule
  rw [h rule hrule]

/-- The flat value is begun as a container that is ready for every rule. -/
theorem ready_blank {d : Destructor} (hc : Compatible (d.rules.map Rule.key)) :
    ∀ key ∈ d.rules.map Rule.key, d.blank.Ready key := by
  intro key hkey
  obtain ⟨rule, hrule, rfl⟩ := List.mem_map.mp hkey
  have hreach := hc.inReach rule.key hkey
  obtain ⟨⟨properties⟩ | ⟨elements⟩, source⟩ := d
  · obtain ⟨first, rest, hfirst⟩ := List.exists_cons_of_ne_nil (grown_of_mem_rules hrule).key_ne_nil
    rw [hfirst] at hreach ⊢
    exact ready_fresh false trivial ((inReach_cons first rest).mp hreach).2
  · obtain ⟨n, rest, hfirst⟩ := exists_index_of_mem_elementRules hrule
    rw [hfirst] at hreach ⊢
    obtain ⟨hn, hrest⟩ := (inReach_cons _ rest).mp hreach
    exact ready_fresh true ((reaches_nil_iff n).mpr (hn n rfl)) hrest

theorem ready_object {d : Destructor} (hc : Compatible (d.rules.map Rule.path)) :
    ∀ path ∈ d.rules.map Rule.path, (object []).Ready path := by
  intro path hpath
  obtain ⟨rule, hrule, rfl⟩ := List.mem_map.mp hpath
  have hreach := hc.inReach rule.path hpath
  obtain ⟨first, rest, hfirst⟩ := List.exists_cons_of_ne_nil (grown_of_mem_rules hrule).path_ne_nil
  rw [hfirst] at hreach ⊢
  exact ready_fresh false trivial ((inReach_cons first rest).mp hreach).2

/-- What is read out of a document and spread over an empty object is read back as it was, and
stands where it stood, if the places of the rules get along with one another on both sides. -/
theorem read_write_read {d : Destructor} (hpath : Compatible (d.rules.map Rule.path))
    (hkey : Compatible (d.rules.map Rule.key)) (source : Document) :
    let flat := d.read source
    let nested := d.write (object []) flat
    d.read nested = flat ∧ ∀ rule ∈ d.rules,
      nested.getAt (rule.path.map .key) = source.getAt (rule.path.map .key) := by
  intro flat nested
  have hkeys : ∀ p ∈ d.rules.map Rule.key, ∀ k ∈ p, k.Settled := by
    simpa using fun rule hrule => (grown_of_mem_rules hrule).key_settled
  have hpaths : ∀ p ∈ d.rules.map Rule.path, ∀ k ∈ p, k.Settled := by
    simpa using fun rule hrule => (grown_of_mem_rules hrule).path_settled
  have hflat : ∀ rule ∈ d.rules, flat.get? rule.key = source.get? rule.path :=
    get?_carry hkey hkeys (ready_blank hkey) source
  have hnested : ∀ rule ∈ d.rules, nested.get? rule.path = flat.get? rule.key :=
    get?_carry hpath hpaths (ready_object hpath) flat
  have hsame : ∀ rule ∈ d.rules, nested.get? rule.path = source.get? rule.path :=
    fun rule hrule => (hnested rule hrule).trans (hflat rule hrule)
  refine ⟨read_congr hsame, ?_⟩
  intro rule hrule
  rw [getAt_map_key, getAt_map_key]
  exact hsame rule hrule

/-- A null in front leaves padding on the flat side, and a gap leaves padding on the nested one. -/
theorem read_write_read_around_nulls :
    let d : Destructor := ⟨.array [.nested (.object [.bound "id" (.name "key")]),
      .nested (.array [.name "x", .nested (.object [.bound "list"
        (.nested (.object [.bound "0" (.name "first"), .bound "2" (.name "third")]))])])],
      "[{id:key},[x,{list:{0:first,2:third}}]]"⟩
    let source := object [("x", null), ("list", array [text "a", bool true, array []]),
      ("id", text "i")]
    let flat := array [object [("key", text "i")],
      array [null, object [("first", text "a"), ("third", array [])]]]
    Compatible (d.rules.map Rule.path) ∧ Compatible (d.rules.map Rule.key) ∧
      d.read source = flat ∧
      d.write (object []) flat =
        object [("id", text "i"), ("list", array [text "a", null, array []])] ∧
      d.read (d.write (object []) (d.read source)) = d.read source := by
  intro d source flat
  have hpath : Compatible (d.rules.map Rule.path) := ⟨by decide, by decide, by decide⟩
  have hkey : Compatible (d.rules.map Rule.key) := ⟨by decide, by decide, by decide⟩
  exact ⟨hpath, hkey, rfl, rfl, (read_write_read hpath hkey source).1⟩

end Destructor

end DocPath
