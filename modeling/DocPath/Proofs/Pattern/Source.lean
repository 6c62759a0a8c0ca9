import DocPath.Proofs.Equality
import DocPath.Proofs.Pattern.Spelling

/-! # Expressions and their sources

The source of a destructuring expression is read as the expression itself, unless a blank has
been dropped from a name or from between two brackets at its beginning. -/

namespace DocPath

/-! ## Names of templates -/

mutual

/-- The names in a template, in reading order. -/
def Template.names : Template → List String
  | .object properties => propertyNames properties
  | .array elements => slotNames elements

def propertyNames : List Property → List String
  | [] => []
  | property :: rest => property.names ++ propertyNames rest

def Property.names : Property → List String
  | .plain key => [key]
  | .bound key slot => key :: slot.names

def Slot.names : Slot → List String
  | .name name => [name]
  | .nested template => template.names

def slotNames : List Slot → List String
  | [] => []
  | slot :: rest => slot.names ++ slotNames rest

end

/-! ## Texts without blanks -/

theorem Mark.char_injective {m m' : Mark} (h : m.char = m'.char) : m = m' := by
  have hmark := congrArg Mark.ofChar? h
  simpa only [Mark.ofChar?_char, Option.some.injEq] using hmark

/-- No character of the text is blank. -/
def Bare (text : List Char) : Prop := ∀ c ∈ text, isBlank c = false

theorem bare_iff {text : List Char} : Bare text ↔ withoutBlanks text = text := by
  simp [Bare, withoutBlanks, List.filter_eq_self]

theorem bare_withoutBlanks (text : List Char) : Bare (withoutBlanks text) :=
  bare_iff.mpr (withoutBlanks_withoutBlanks text)

theorem bare_toList_iff {s : String} : Bare s.toList ↔ stripBlanks s = s := by
  rw [bare_iff, stripBlanks, ← String.toList_inj, String.toList_ofList]

theorem Bare.dropWhile {text : List Char} (h : Bare text) : text.dropWhile isBlank = text := by
  cases text with
  | nil => rfl
  | cons c rest => exact List.dropWhile_cons_of_neg (by simp [h c List.mem_cons_self])

theorem withoutBlanks_char_cons (m : Mark) (text : List Char) :
    withoutBlanks (m.char :: text) = m.char :: withoutBlanks text :=
  withoutBlanks_cons (isBlank_char m) text

theorem exists_blanks (text : List Char) :
    ∃ blanks, text = blanks ++ text.dropWhile isBlank ∧ withoutBlanks blanks = [] := by
  refine ⟨text.takeWhile isBlank, List.takeWhile_append_dropWhile.symm, ?_⟩
  exact withoutBlanks_eq_nil_iff.mpr fun c hc => List.mem_takeWhile_imp hc

theorem withoutBlanks_dropWhile (text : List Char) :
    withoutBlanks (text.dropWhile isBlank) = withoutBlanks text := by
  obtain ⟨blanks, htext, hblanks⟩ := exists_blanks text
  nth_rewrite 2 [htext]
  rw [withoutBlanks_append, hblanks, List.nil_append]

theorem isBlank_of_dropWhile_eq_cons {text rest : List Char} {c : Char}
    (h : text.dropWhile isBlank = c :: rest) : isBlank c = false := by
  simpa [h] using List.head?_dropWhile_not isBlank text

/-- A name without blanks is spelled without blanks, and read alike in front of any mark. -/
theorem exists_raw_of_readName {text name rest : List Char} (h : readName text = (name, rest))
    (hrest : rest ≠ []) (hname : Bare name) :
    ∃ raw, text = raw ++ rest ∧ Bare raw ∧
      ∀ {marks after}, StartsIn marks after → readName (raw ++ after) = (name, after) := by
  -- The text is at its end, or begins with an escape, with what ends a name, or with any other
  -- character; a backslash at the end would lose its place in front of another text.
  fun_induction readName text generalizing name with
  | case1 | case2 =>
      cases h
      exact absurd rfl hrest
  | case3 kept text ih =>
      obtain ⟨rfl, rfl⟩ := Prod.mk.inj h
      obtain ⟨hkept, hname⟩ := List.forall_mem_cons.mp hname
      obtain ⟨raw, htext, hraw, hread⟩ := ih rfl hname
      refine ⟨'\\' :: kept :: raw, congrArg ('\\' :: kept :: ·) htext, ?_, ?_⟩
      · exact List.forall_mem_cons.mpr ⟨by decide, List.forall_mem_cons.mpr ⟨hkept, hraw⟩⟩
      · intro marks after ha
        rw [List.cons_append, List.cons_append, readName_backslash, hread ha]
  | case4 c text hc hstop =>
      obtain ⟨rfl, rfl⟩ := Prod.mk.inj h
      exact ⟨[], rfl, List.forall_mem_nil _, readName_of_startsIn⟩
  | case5 c text hc hstop ih =>
      obtain ⟨rfl, rfl⟩ := Prod.mk.inj h
      obtain ⟨hblank, hname⟩ := List.forall_mem_cons.mp hname
      obtain ⟨raw, htext, hraw, hread⟩ := ih rfl hname
      refine ⟨c :: raw, congrArg (c :: ·) htext, List.forall_mem_cons.mpr ⟨hblank, hraw⟩, ?_⟩
      intro marks after ha
      rw [List.cons_append, readName_cons_of_ne hc, if_neg hstop, hread ha]

/-! ## Tokens read without their blanks -/

theorem exists_raw_of_next_mark {inside : Bool} {text start rest : List Char} {m : Mark}
    (h : Lexeme.next inside text = .ok ⟨.mark m, start, rest⟩) :
    ∃ raw, text = raw ++ rest ∧ withoutBlanks raw = [m.char] := by
  obtain ⟨blanks, htext, hblanks⟩ := exists_blanks text
  cases Lexeme.next_eq_ok_iff.mp h with
  | mark hs _ =>
      refine ⟨blanks ++ [m.char], ?_, ?_⟩
      · rw [List.append_assoc, List.singleton_append, ← hs]
        exact htext
      · simp [hblanks, withoutBlanks_char_cons]

theorem next_inside_mark (m : Mark) (rest : List Char) :
    Lexeme.next true (m.char :: rest) = .ok ⟨.mark m, m.char :: rest, rest⟩ :=
  next_mark fun _ hi => by cases hi

theorem exists_raw_of_next_name {text start rest : List Char} {name : String}
    (h : Lexeme.next true text = .ok ⟨.name name, start, rest⟩) (hrest : rest ≠ [])
    (hne : name ≠ "") (hname : stripBlanks name = name) :
    ∃ raw, text = raw ++ rest ∧ 0 < (withoutBlanks raw).length ∧
      ∀ {marks after}, StartsIn marks after →
        ∃ start', Lexeme.next true (withoutBlanks raw ++ after) =
          .ok ⟨.name name, start', after⟩ := by
  obtain ⟨blanks, htext, hblanks⟩ := exists_blanks text
  cases Lexeme.next_eq_ok_iff.mp h with
  | @name c _ name _ hs hm hr =>
      have hbare : Bare name := by simpa using bare_toList_iff.mpr hname
      obtain ⟨raw, hraw, hbareRaw, hread⟩ := exists_raw_of_readName hr hrest hbare
      obtain ⟨c', raw, rfl⟩ : ∃ c' raw', raw = c' :: raw' := by
        apply List.exists_cons_of_ne_nil
        rintro rfl
        have hnil := hread (Or.inl rfl : StartsIn [] [])
        cases hnil
        exact hne rfl
      obtain rfl : c = c' := (List.cons.inj hraw).1
      refine ⟨blanks ++ c :: raw, ?_, ?_, ?_⟩
      · rw [htext, hs, hraw, List.append_assoc]
      · simp [hblanks, bare_iff.mp hbareRaw]
      · intro marks after ha
        have hhead : isBlank c = false := hbareRaw c List.mem_cons_self
        have hstart : (c :: (raw ++ after)).dropWhile isBlank = c :: (raw ++ after) :=
          List.dropWhile_cons_of_neg (by simp [hhead])
        rw [withoutBlanks_append, hblanks, bare_iff.mp hbareRaw]
        exact ⟨_, Lexeme.next_eq_ok_iff.mpr (.name hstart hm (hread ha))⟩

namespace Pattern

/-! ## Readers -/

variable {α : Type}

/-- The reader takes the text up to `rest`. It reads the same from that text without its blanks,
in front of whatever is `fit` to follow. -/
def ReadsBare (reader : Nat → List Char → Except ParseError (α × List Char))
    (fit : List Char → Prop) (text : List Char) (result : α) (rest : List Char) : Prop :=
  ∃ raw, text = raw ++ rest ∧ ∀ {fuel after}, fit after →
    2 * (withoutBlanks raw).length ≤ fuel →
    reader fuel (withoutBlanks raw ++ after) = .ok (result, after)

/-- A mark in front takes part of the fuel and leaves the reader what it needs. -/
theorem ReadsBare.behind_mark
    {reader : Nat → List Char → Except ParseError (α × List Char)} {fit : List Char → Prop}
    {inside : Bool} {text start inner rest : List Char} {result : α} {m : Mark}
    (h : ReadsBare reader fit inner result rest)
    (ht : Lexeme.next inside text = .ok ⟨.mark m, start, inner⟩) :
    ∃ raw, text = raw ++ rest ∧ 0 < (withoutBlanks raw).length ∧
      ∀ {fuel after}, fit after → 2 * (withoutBlanks raw).length ≤ fuel + 2 →
        ∃ inner', withoutBlanks raw ++ after = m.char :: inner' ∧
          reader fuel inner' = .ok (result, after) := by
  obtain ⟨opening, rfl, hopening⟩ := exists_raw_of_next_mark ht
  obtain ⟨raw, rfl, hread⟩ := h
  refine ⟨opening ++ raw, (List.append_assoc ..).symm, by simp [hopening], ?_⟩
  intro fuel after ha hf
  rw [withoutBlanks_append, hopening, List.singleton_append] at hf ⊢
  rw [List.length_cons] at hf
  exact ⟨_, rfl, hread ha (by omega)⟩

/-- What is read with this much fuel is read alike from its text without blanks, if its names
have none. -/
structure ReadsBareSlots (fuel : Nat) : Prop where
  slot : ∀ {text rest s}, slot fuel text = .ok (s, rest) → rest ≠ [] →
    (∀ name ∈ s.names, stripBlanks name = name) →
    ReadsBare Pattern.slot (fun after => ∃ marks, StartsIn marks after) text s rest
  properties : ∀ {text rest all}, properties fuel text = .ok (all, rest) →
    (∀ name ∈ propertyNames all, stripBlanks name = name) →
    ReadsBare Pattern.properties (fun _ => True) text all rest
  elements : ∀ {text rest all}, elements fuel text = .ok (all, rest) →
    (∀ name ∈ slotNames all, stripBlanks name = name) →
    ReadsBare Pattern.elements (fun _ => True) text all rest

theorem ne_nil_of_next_mark {inside : Bool} {text start rest : List Char} {m : Mark}
    (h : Lexeme.next inside text = .ok ⟨.mark m, start, rest⟩) : text ≠ [] := by
  rintro rfl
  cases h

theorem slot_withoutBlanks {fuel : Nat} (ih : ReadsBareSlots fuel) {text rest : List Char}
    {s : Slot} (h : slot (fuel + 1) text = .ok (s, rest)) (hrest : rest ≠ [])
    (hnames : ∀ name ∈ s.names, stripBlanks name = name) :
    ReadsBare slot (fun after => ∃ marks, StartsIn marks after) text s rest := by
  cases slot_succ_eq_ok_iff.mp h with
  | @name name _ _ ht hne =>
      have hname : stripBlanks name = name := hnames name List.mem_cons_self
      obtain ⟨raw, rfl, hpos, hread⟩ := exists_raw_of_next_name ht hrest hne hname
      refine ⟨raw, rfl, ?_⟩
      rintro fuel' after ⟨marks, ha⟩ hf
      obtain ⟨fuel', rfl⟩ : ∃ n, fuel' = n + 1 := ⟨fuel' - 1, by omega⟩
      obtain ⟨start', ht'⟩ := hread ha
      exact slot_succ_eq_ok_iff.mpr (.name ht' hne)
  | object ht hm =>
      obtain ⟨raw, rfl, hpos, hread⟩ := (ih.properties hm hnames).behind_mark ht
      refine ⟨raw, rfl, ?_⟩
      intro fuel' after _ hf
      obtain ⟨fuel', rfl⟩ : ∃ n, fuel' = n + 1 := ⟨fuel' - 1, by omega⟩
      obtain ⟨inner, hinner, hmembers⟩ := @hread fuel' after trivial (by omega)
      rw [hinner]
      apply slot_succ_eq_ok_iff.mpr
      exact .object (next_inside_mark _ _) hmembers
  | array ht hm =>
      obtain ⟨raw, rfl, hpos, hread⟩ := (ih.elements hm hnames).behind_mark ht
      refine ⟨raw, rfl, ?_⟩
      intro fuel' after _ hf
      obtain ⟨fuel', rfl⟩ : ∃ n, fuel' = n + 1 := ⟨fuel' - 1, by omega⟩
      obtain ⟨inner, hinner, hmembers⟩ := @hread fuel' after trivial (by omega)
      rw [hinner]
      apply slot_succ_eq_ok_iff.mpr
      exact .array (next_inside_mark _ _) hmembers

/-- The name and the value of a property are read in front of a mark other than a colon. -/
theorem property_withoutBlanks {fuel : Nat} (ih : ReadsBareSlots fuel) {key : String}
    {text start inner rest : List Char} {p : Property}
    (ht : Lexeme.next true text = .ok ⟨.name key, start, inner⟩) (hne : key ≠ "")
    (hp : property (slot fuel) key inner = .ok (p, rest)) (hrest : rest ≠ [])
    (hnames : ∀ name ∈ p.names, stripBlanks name = name) :
    ∃ raw, text = raw ++ rest ∧ ∀ (fuel' : Nat) (m : Mark) (after : List Char), m ≠ .colon →
      2 * (withoutBlanks raw).length ≤ fuel' →
      ∃ start' inner', Lexeme.next true (withoutBlanks raw ++ m.char :: after) =
          .ok ⟨.name key, start', inner'⟩ ∧
        property (slot fuel') key inner' = .ok (p, m.char :: after) := by
  cases property_eq_ok_iff.mp hp with
  | plain hu hc =>
      have hkey : stripBlanks key = key := hnames key List.mem_cons_self
      obtain ⟨raw, rfl, -, hread⟩ := exists_raw_of_next_name ht hrest hne hkey
      refine ⟨raw, rfl, ?_⟩
      intro fuel' m after hm _
      obtain ⟨start', ht'⟩ := hread (startsIn_cons (List.mem_singleton_self m) after)
      refine ⟨start', _, ht', ?_⟩
      apply property_eq_ok_iff.mpr
      exact .plain (next_inside_mark m after) (by simpa using hm)
  | bound hu hs =>
      have hkey : stripBlanks key = key := hnames key List.mem_cons_self
      obtain ⟨raw, rfl, -, hread⟩ :=
        exists_raw_of_next_name ht (ne_nil_of_next_mark hu) hne hkey
      obtain ⟨value, rfl, -, hvalue⟩ :=
        (ih.slot hs hrest fun name hn => hnames name (List.mem_cons_of_mem key hn)).behind_mark hu
      refine ⟨raw ++ value, (List.append_assoc ..).symm, ?_⟩
      intro fuel' m after hm hf
      simp only [withoutBlanks_append, List.length_append, List.append_assoc] at hf ⊢
      have hafter := startsIn_cons (List.mem_singleton_self m) after
      obtain ⟨inner', hinner, hslot⟩ := @hvalue fuel' _ ⟨_, hafter⟩ (by omega)
      obtain ⟨start', ht'⟩ := hread (startsIn_cons (List.mem_singleton_self Mark.colon) inner')
      rw [hinner]
      refine ⟨start', _, ht', ?_⟩
      apply property_eq_ok_iff.mpr
      exact .bound (next_inside_mark _ _) hslot

theorem properties_withoutBlanks {fuel : Nat} (ih : ReadsBareSlots fuel) {text rest : List Char}
    {all : List Property} (h : properties (fuel + 1) text = .ok (all, rest))
    (hnames : ∀ name ∈ propertyNames all, stripBlanks name = name) :
    ReadsBare properties (fun _ => True) text all rest := by
  cases properties_succ_eq_ok_iff.mp h with
  | none ht =>
      obtain ⟨closing, rfl, hclosing⟩ := exists_raw_of_next_mark ht
      refine ⟨closing, rfl, ?_⟩
      intro fuel' after _ hf
      simp only [hclosing, List.length_singleton] at hf
      obtain ⟨fuel', rfl⟩ : ∃ n, fuel' = n + 1 := ⟨fuel' - 1, by omega⟩
      rw [hclosing, List.singleton_append]
      exact properties_succ_eq_ok_iff.mpr (.none (next_inside_mark _ _))
  | last ht hne hp hu =>
      obtain ⟨raw, rfl, hread⟩ := property_withoutBlanks ih ht hne hp (ne_nil_of_next_mark hu)
        fun name hn => hnames name (List.mem_append_left _ hn)
      obtain ⟨closing, rfl, hclosing⟩ := exists_raw_of_next_mark hu
      refine ⟨raw ++ closing, (List.append_assoc ..).symm, ?_⟩
      intro fuel' after _ hf
      simp only [withoutBlanks_append, hclosing, List.length_append, List.length_singleton,
        List.append_assoc, List.singleton_append] at hf ⊢
      obtain ⟨fuel', rfl⟩ : ∃ n, fuel' = n + 1 := ⟨fuel' - 1, by omega⟩
      obtain ⟨start', inner', ht', hp'⟩ := hread fuel' .braceR after (by decide) (by omega)
      apply properties_succ_eq_ok_iff.mpr
      exact .last ht' hne hp' (next_inside_mark _ _)
  | more ht hne hp hu ho =>
      obtain ⟨raw, rfl, hread⟩ := property_withoutBlanks ih ht hne hp (ne_nil_of_next_mark hu)
        fun name hn => hnames name (List.mem_append_left _ hn)
      obtain ⟨others, rfl, hpos, hothers⟩ :=
        (ih.properties ho fun name hn => hnames name (List.mem_append_right _ hn)).behind_mark hu
      refine ⟨raw ++ others, (List.append_assoc ..).symm, ?_⟩
      intro fuel' after _ hf
      simp only [withoutBlanks_append, List.length_append, List.append_assoc] at hf ⊢
      obtain ⟨fuel', rfl⟩ : ∃ n, fuel' = n + 1 := ⟨fuel' - 1, by omega⟩
      obtain ⟨inner, hinner, hmore⟩ := @hothers fuel' after trivial (by omega)
      obtain ⟨start', inner', ht', hp'⟩ := hread fuel' .comma inner (by decide) (by omega)
      rw [hinner]
      apply properties_succ_eq_ok_iff.mpr
      exact .more ht' hne hp' (next_inside_mark _ _) hmore

theorem elements_withoutBlanks {fuel : Nat} (ih : ReadsBareSlots fuel) {text rest : List Char}
    {all : List Slot} (h : elements (fuel + 1) text = .ok (all, rest))
    (hnames : ∀ name ∈ slotNames all, stripBlanks name = name) :
    ReadsBare elements (fun _ => True) text all rest := by
  cases elements_succ_eq_ok_iff.mp h with
  | none ht =>
      obtain ⟨closing, rfl, hclosing⟩ := exists_raw_of_next_mark ht
      refine ⟨closing, rfl, ?_⟩
      intro fuel' after _ hf
      simp only [hclosing, List.length_singleton] at hf
      obtain ⟨fuel', rfl⟩ : ∃ n, fuel' = n + 1 := ⟨fuel' - 1, by omega⟩
      rw [hclosing, List.singleton_append]
      exact elements_succ_eq_ok_iff.mpr (.none (next_inside_mark _ _))
  | last hs hu =>
      obtain ⟨raw, rfl, hread⟩ := ih.slot hs (ne_nil_of_next_mark hu)
        fun name hn => hnames name (List.mem_append_left _ hn)
      obtain ⟨closing, rfl, hclosing⟩ := exists_raw_of_next_mark hu
      refine ⟨raw ++ closing, (List.append_assoc ..).symm, ?_⟩
      intro fuel' after _ hf
      simp only [withoutBlanks_append, hclosing, List.length_append, List.length_singleton,
        List.append_assoc, List.singleton_append] at hf ⊢
      obtain ⟨fuel', rfl⟩ : ∃ n, fuel' = n + 1 := ⟨fuel' - 1, by omega⟩
      have hafter := startsIn_cons (List.mem_singleton_self Mark.bracketR) after
      apply elements_succ_eq_ok_iff.mpr
      exact .last (hread ⟨_, hafter⟩ (by omega)) (next_inside_mark _ _)
  | more hs hu ho =>
      obtain ⟨raw, rfl, hread⟩ := ih.slot hs (ne_nil_of_next_mark hu)
        fun name hn => hnames name (List.mem_append_left _ hn)
      obtain ⟨others, rfl, hpos, hothers⟩ :=
        (ih.elements ho fun name hn => hnames name (List.mem_append_right _ hn)).behind_mark hu
      refine ⟨raw ++ others, (List.append_assoc ..).symm, ?_⟩
      intro fuel' after _ hf
      simp only [withoutBlanks_append, List.length_append, List.append_assoc] at hf ⊢
      obtain ⟨fuel', rfl⟩ : ∃ n, fuel' = n + 1 := ⟨fuel' - 1, by omega⟩
      obtain ⟨inner, hinner, hmore⟩ := @hothers fuel' after trivial (by omega)
      have hafter := startsIn_cons (List.mem_singleton_self Mark.comma) inner
      rw [hinner]
      apply elements_succ_eq_ok_iff.mpr
      exact .more (hread ⟨_, hafter⟩ (by omega)) (next_inside_mark _ _) hmore

theorem readsBareSlots (fuel : Nat) : ReadsBareSlots fuel := by
  induction fuel with
  | zero =>
      refine ⟨?_, ?_, ?_⟩
      · intro text rest s h
        cases h
      · intro text rest all h
        cases h
      · intro text rest all h
        cases h
  | succ fuel ih =>
      exact ⟨slot_withoutBlanks ih, properties_withoutBlanks ih, elements_withoutBlanks ih⟩

/-! ## Names from texts without blanks -/

theorem bare_readName {text : List Char} (h : Bare text) :
    Bare (readName text).1 ∧ Bare (readName text).2 := by
  fun_induction readName text with
  | case1 | case2 => exact ⟨List.forall_mem_nil _, List.forall_mem_nil _⟩
  | case3 kept text ih =>
      obtain ⟨-, h⟩ := List.forall_mem_cons.mp h
      obtain ⟨hkept, h⟩ := List.forall_mem_cons.mp h
      exact ⟨List.forall_mem_cons.mpr ⟨hkept, (ih h).1⟩, (ih h).2⟩
  | case4 c text hc hstop => exact ⟨List.forall_mem_nil _, h⟩
  | case5 c text hc hstop ih =>
      obtain ⟨hblank, h⟩ := List.forall_mem_cons.mp h
      exact ⟨List.forall_mem_cons.mpr ⟨hblank, (ih h).1⟩, (ih h).2⟩

theorem bare_next {text : List Char} (h : Bare text) {t : Lexeme}
    (ht : Lexeme.next true text = .ok t) :
    Bare t.rest ∧ ∀ name, t.token = .name name → stripBlanks name = name := by
  have hstart := h
  rw [← h.dropWhile] at hstart
  cases Lexeme.next_eq_ok_iff.mp ht with
  | eof hs => exact ⟨List.forall_mem_nil _, by simp⟩
  | name hs hm hr =>
      rw [hs] at hstart
      obtain ⟨hname, hrest⟩ := bare_readName hstart
      rw [hr] at hname hrest
      refine ⟨hrest, ?_⟩
      rintro name ⟨⟩
      exact bare_toList_iff.mp (by simpa using hname)
  | verbatim hi => cases hi
  | mark hs hb =>
      rw [hs] at hstart
      exact ⟨(List.forall_mem_cons.mp hstart).2, by simp⟩

/-- From a text without blanks no reader takes a name that has one. -/
theorem slot_bare (fuel : Nat) :
    (∀ {text rest s}, slot fuel text = .ok (s, rest) → Bare text →
      (∀ name ∈ s.names, stripBlanks name = name) ∧ Bare rest) ∧
    (∀ {text rest all}, properties fuel text = .ok (all, rest) → Bare text →
      (∀ name ∈ propertyNames all, stripBlanks name = name) ∧ Bare rest) ∧
    (∀ {text rest all}, elements fuel text = .ok (all, rest) → Bare text →
      (∀ name ∈ slotNames all, stripBlanks name = name) ∧ Bare rest) := by
  induction fuel with
  | zero =>
      refine ⟨?_, ?_, ?_⟩
      all_goals
        intro text rest _ h
        cases h
  | succ fuel ih =>
      obtain ⟨ihSlot, ihProperties, ihElements⟩ := ih
      have hproperty : ∀ {key text rest p}, stripBlanks key = key →
          property (slot fuel) key text = .ok (p, rest) → Bare text →
          (∀ name ∈ p.names, stripBlanks name = name) ∧ Bare rest := by
        intro key text rest p hkey h hb
        cases property_eq_ok_iff.mp h with
        | plain _ _ => exact ⟨by simpa [Property.names] using hkey, hb⟩
        | bound ht hs =>
            obtain ⟨hvalue, hrest⟩ := ihSlot hs (bare_next hb ht).1
            exact ⟨List.forall_mem_cons.mpr ⟨hkey, hvalue⟩, hrest⟩
      refine ⟨?_, ?_, ?_⟩
      · intro text rest s h hb
        cases slot_succ_eq_ok_iff.mp h with
        | name ht _ =>
            obtain ⟨hrest, hname⟩ := bare_next hb ht
            exact ⟨by simpa [Slot.names] using hname _ rfl, hrest⟩
        | object ht hm => exact ihProperties hm (bare_next hb ht).1
        | array ht hm => exact ihElements hm (bare_next hb ht).1
      · intro text rest all h hb
        cases properties_succ_eq_ok_iff.mp h with
        | none ht => exact ⟨List.forall_mem_nil _, (bare_next hb ht).1⟩
        | last ht _ hp hu =>
            obtain ⟨hinner, hkey⟩ := bare_next hb ht
            obtain ⟨hnames, hafter⟩ := hproperty (hkey _ rfl) hp hinner
            exact ⟨by simpa [propertyNames] using hnames, (bare_next hafter hu).1⟩
        | more ht _ hp hu ho =>
            obtain ⟨hinner, hkey⟩ := bare_next hb ht
            obtain ⟨hnames, hafter⟩ := hproperty (hkey _ rfl) hp hinner
            obtain ⟨hothers, hrest⟩ := ihProperties ho (bare_next hafter hu).1
            exact ⟨List.forall_mem_append.mpr ⟨hnames, hothers⟩, hrest⟩
      · intro text rest all h hb
        cases elements_succ_eq_ok_iff.mp h with
        | none ht => exact ⟨List.forall_mem_nil _, (bare_next hb ht).1⟩
        | last hs hu =>
            obtain ⟨hnames, hafter⟩ := ihSlot hs hb
            exact ⟨by simpa [slotNames] using hnames, (bare_next hafter hu).1⟩
        | more hs hu ho =>
            obtain ⟨hnames, hafter⟩ := ihSlot hs hb
            obtain ⟨hothers, hrest⟩ := ihElements ho (bare_next hafter hu).1
            exact ⟨List.forall_mem_append.mpr ⟨hnames, hothers⟩, hrest⟩

/-! ## Templates -/

theorem template_bare {fuel : Nat} {m : Mark} {text rest : List Char} {shape : Template}
    (h : template fuel m text = .ok (shape, rest)) (hb : Bare text) :
    ∀ name ∈ shape.names, stripBlanks name = name := by
  cases template_eq_ok_iff.mp h with
  | object hp => exact ((slot_bare fuel).2.1 hp hb).1
  | array _ he => exact ((slot_bare fuel).2.2 he hb).1

theorem template_withoutBlanks {fuel : Nat} {m : Mark} {text rest : List Char} {shape : Template}
    (h : template fuel m text = .ok (shape, rest))
    (hnames : ∀ name ∈ shape.names, stripBlanks name = name) :
    ReadsBare (template · m) (fun _ => True) text shape rest := by
  cases template_eq_ok_iff.mp h with
  | object hp =>
      obtain ⟨raw, htext, hread⟩ := (readsBareSlots fuel).properties hp hnames
      exact ⟨raw, htext, fun ha hf => template_eq_ok_iff.mpr (.object (hread ha hf))⟩
  | array hm he =>
      obtain ⟨raw, htext, hread⟩ := (readsBareSlots fuel).elements he hnames
      exact ⟨raw, htext, fun ha hf => template_eq_ok_iff.mpr (.array hm (hread ha hf))⟩

/-! ## Expressions in chains -/

theorem destructor_notMem_nameSteps (d : Destructor) (bracketed : Bool) (text : String)
    (more : List String) (expand : Bool) :
    Step.destructor d ∉ nameSteps bracketed text more expand := by
  induction more generalizing bracketed text with
  | nil => simp [nameSteps]
  | cons index more ih => simp [nameSteps, ih]

theorem wildcard_ne_destructor {fuel : Nat} {text rest : List Char} {step : Step}
    (h : wildcard fuel text = .ok (step, rest)) (d : Destructor) : step ≠ .destructor d := by
  cases fuel with
  | zero => cases h
  | succ fuel =>
      cases wildcard_succ_eq_ok_iff.mp h with
      | group | range | any => simp

/-- An expression in a chain was read from where its bracket stands. -/
theorem exists_destructor_of_mem (d : Destructor) (fuel : Nat) :
    let Read := ∃ fuel text m start inner rest, (m = .braceL ∨ m = .bracketL) ∧
      Lexeme.next false text = .ok ⟨.mark m, start, inner⟩ ∧
      destructor fuel ⟨.mark m, start, inner⟩ m = .ok (d, rest)
    (∀ {text rest steps}, chain fuel text = .ok (steps, rest) → .destructor d ∈ steps → Read) ∧
    (∀ {text rest steps}, link fuel text = .ok (steps, rest) → .destructor d ∈ steps → Read) := by
  intro Read
  induction fuel with
  | zero =>
      refine ⟨?_, ?_⟩
      all_goals
        intro text rest steps h
        cases h
  | succ fuel ih =>
      obtain ⟨ihChain, ihLink⟩ := ih
      refine ⟨?_, ?_⟩
      · intro text rest steps h hd
        cases chain_succ_eq_ok_iff.mp h with
        | name _ _ _ _ hl =>
            rcases List.mem_append.mp hd with hd | hd
            · exact absurd hd (destructor_notMem_nameSteps _ _ _ _ _)
            · exact ihLink hl hd
        | verbatim _ hl => exact ihLink hl (by simpa using hd)
        | wildcard _ hw hl =>
            rcases List.mem_cons.mp hd with hd | hd
            · exact absurd hd.symm (wildcard_ne_destructor hw d)
            · exact ihLink hl hd
        | destructor ht hm hr =>
            cases List.mem_singleton.mp hd
            exact ⟨_, _, _, _, _, _, hm, ht, hr⟩
      · intro text rest steps h hd
        cases link_succ_eq_ok_iff.mp h with
        | none _ => cases hd
        | some _ hc => exact ihChain hc hd

end Pattern

namespace Destructor

/-! ## What a source stands for -/

/-- The expression is part of an accepted pattern. -/
def Accepted (d : Destructor) : Prop :=
  ∃ text chain, Chain.parse text = .ok chain ∧ Step.destructor d ∈ chain

/-- No name of the expression has a blank. -/
def Unspaced (d : Destructor) : Prop := ∀ name ∈ d.template.names, stripBlanks name = name

instance (d : Destructor) : Decidable d.Unspaced :=
  inferInstanceAs (Decidable (∀ name ∈ d.template.names, stripBlanks name = name))

theorem parse_eq_ok_iff {text : String} {d : Destructor} :
    Destructor.parse text = .ok d ↔
      ∃ after, Chain.parse text = .ok (.destructor d :: after) := by
  unfold Destructor.parse
  constructor
  · intro h
    split at h
    · cases h
    · rename_i hparse
      cases h
      exact ⟨_, hparse⟩
    · cases h
  · rintro ⟨after, h⟩
    rw [h]

theorem accepted_of_parse {text : String} {d : Destructor} (h : Destructor.parse text = .ok d) :
    d.Accepted := by
  obtain ⟨after, hparse⟩ := parse_eq_ok_iff.mp h
  exact ⟨text, _, hparse, List.mem_cons_self⟩

theorem exists_read_of_accepted {d : Destructor} (h : d.Accepted) :
    ∃ fuel text m start inner rest, (m = .braceL ∨ m = .bracketL) ∧
      Lexeme.next false text = .ok ⟨.mark m, start, inner⟩ ∧
      Pattern.destructor fuel ⟨.mark m, start, inner⟩ m = .ok (d, rest) := by
  obtain ⟨text, chain, hparse, hd⟩ := h
  cases Chain.parse_eq_ok_iff.mp hparse with
  | blank _ _ => cases hd
  | steps _ _ hc _ _ => exact (Pattern.exists_destructor_of_mem d _).1 hc hd

theorem bare_source {d : Destructor} (h : d.Accepted) : Bare d.source.toList := by
  obtain ⟨fuel, text, m, start, inner, rest, -, -, hread⟩ := exists_read_of_accepted h
  rw [(Pattern.destructor_eq_ok_iff.mp hread).2.2, String.toList_ofList]
  exact bare_withoutBlanks _

/-- An expression without spaced names is read alike from its text without blanks, which begins
with its source. -/
theorem exists_body_of_read {inside : Bool} {fuel : Nat} {m : Mark}
    {text start inner rest : List Char} {d : Destructor}
    (ht : Lexeme.next inside text = .ok ⟨.mark m, start, inner⟩)
    (hread : Pattern.destructor fuel ⟨.mark m, start, inner⟩ m = .ok (d, rest))
    (hnames : d.Unspaced) :
    ∃ body, d.source.toList = m.char :: body ∧
      withoutBlanks text = m.char :: (body ++ withoutBlanks rest) ∧
      ∀ fuel, 2 * body.length ≤ fuel → Pattern.template fuel m body = .ok (d.template, []) := by
  obtain ⟨htemplate, -, hsource⟩ := Pattern.destructor_eq_ok_iff.mp hread
  obtain ⟨raw, rfl, hbody⟩ := Pattern.template_withoutBlanks htemplate hnames
  have hstart : start = m.char :: (raw ++ rest) := by
    cases Lexeme.next_eq_ok_iff.mp ht with
    | mark _ _ => rfl
  have htaken : start.take (start.length - rest.length) = m.char :: raw := by
    have hlength : (m.char :: (raw ++ rest)).length - rest.length = (m.char :: raw).length := by
      simp only [List.length_cons, List.length_append]
      omega
    rw [hstart, hlength, ← List.cons_append, List.take_left]
  obtain ⟨opening, rfl, hopening⟩ := exists_raw_of_next_mark ht
  refine ⟨withoutBlanks raw, ?_, ?_, ?_⟩
  · rw [hsource, htaken, withoutBlanks_char_cons, String.toList_ofList]
  · rw [withoutBlanks_append, withoutBlanks_append, hopening, List.singleton_append]
  · intro fuel' hf
    simpa using @hbody fuel' [] trivial hf

/-- Behind its bracket the source of an expression without spaced names is read as the
template. -/
theorem exists_body_of_accepted {d : Destructor} (h : d.Accepted) (hnames : d.Unspaced) :
    ∃ m body, (m = .braceL ∨ m = .bracketL) ∧ d.source.toList = m.char :: body ∧
      ∀ fuel, 2 * body.length ≤ fuel →
        Pattern.template fuel m body = .ok (d.template, []) := by
  obtain ⟨fuel, text, m, start, inner, rest, hm, ht, hread⟩ := exists_read_of_accepted h
  obtain ⟨body, hsource, -, hbody⟩ := exists_body_of_read ht hread hnames
  exact ⟨m, body, hm, hsource, hbody⟩

/-- What is read as the template behind its bracket is a whole chain of one expression. -/
theorem chain_source {d : Destructor} {m : Mark} {body : List Char}
    (hm : m = .braceL ∨ m = .bracketL) (hsource : d.source.toList = m.char :: body)
    (hread : ∀ fuel, 2 * body.length ≤ fuel → Pattern.template fuel m body = .ok (d.template, []))
    (hbare : Bare d.source.toList) (hopen : ¬ ['[', '['] <+: d.source.toList) {fuel : Nat}
    (hf : 2 * body.length ≤ fuel) :
    Lexeme.next false (m.char :: body) = .ok ⟨.mark m, m.char :: body, body⟩ ∧
      Pattern.chain (fuel + 1) (m.char :: body) = .ok ([.destructor d], []) := by
  rw [hsource] at hopen hbare
  have ht : Lexeme.next false (m.char :: body) = .ok ⟨.mark m, m.char :: body, body⟩ := by
    apply next_mark
    rintro rfl - hhead
    obtain ⟨rest, rfl⟩ := List.head?_eq_some_iff.mp hhead
    exact hopen ⟨rest, rfl⟩
  have hself : d.source = String.ofList (withoutBlanks
      ((m.char :: body).take ((m.char :: body).length - ([] : List Char).length))) := by
    rw [List.length_nil, Nat.sub_zero, List.take_length, bare_iff.mp hbare, ← hsource,
      String.ofList_toList]
  have hd : Pattern.destructor fuel ⟨.mark m, m.char :: body, body⟩ m = .ok (d, []) :=
    Pattern.destructor_eq_ok_iff.mpr ⟨hread fuel hf, ⟨⟨.eof, [], []⟩, rfl, by simp⟩, hself⟩
  exact ⟨ht, Pattern.chain_succ_eq_ok_iff.mpr (.destructor ht hm hd)⟩

theorem parse_source {d : Destructor} (h : d.Accepted) (hnames : d.Unspaced)
    (hopen : ¬ ['[', '['] <+: d.source.toList) : Destructor.parse d.source = .ok d := by
  obtain ⟨m, body, hm, hsource, hread⟩ := exists_body_of_accepted h hnames
  obtain ⟨ht, hc⟩ := chain_source hm hsource hread (bare_source h) hopen
    (by simp; omega : 2 * body.length ≤ 2 * (m.char :: body).length + 1)
  refine parse_eq_ok_iff.mpr ⟨[], Chain.parse_eq_ok_iff.mpr ?_⟩
  rw [hsource]
  exact .steps ht (by simp) hc rfl rfl

/-- An expression at the head of a chain was read from the beginning of its text. -/
theorem exists_read_of_parse {text : String} {d : Destructor}
    (h : Destructor.parse text = .ok d) :
    ∃ fuel m start inner rest,
      Lexeme.next false text.toList = .ok ⟨.mark m, start, inner⟩ ∧
      Pattern.template fuel m inner = .ok (d.template, rest) := by
  obtain ⟨after, hparse⟩ := parse_eq_ok_iff.mp h
  cases Chain.parse_eq_ok_iff.mp hparse with
  | steps _ _ hc _ _ =>
      have hrule := Pattern.chain_succ_eq_ok_iff.mp hc
      generalize hsteps : Step.destructor d :: after = steps at hrule
      cases hrule with
      | @name _ _ _ indices =>
          cases indices <;> simp [Pattern.nameSteps] at hsteps
      | verbatim => cases hsteps
      | wildcard _ hw _ =>
          exact absurd (List.cons.inj hsteps).1.symm (Pattern.wildcard_ne_destructor hw d)
      | destructor ht _ hd =>
          cases hsteps
          exact ⟨_, _, _, _, _, ht, (Pattern.destructor_eq_ok_iff.mp hd).1⟩

/-- What is read from a text without blanks has none in its names, and the text does not begin
as a verbatim one does. -/
theorem unspaced_of_parse {text : String} (hb : Bare text.toList) {d : Destructor}
    (h : Destructor.parse text = .ok d) : d.Unspaced ∧ ¬ ['[', '['] <+: text.toList := by
  obtain ⟨fuel, m, start, inner, rest, ht, hread⟩ := exists_read_of_parse h
  cases Lexeme.next_eq_ok_iff.mp ht with
  | mark hs hopen =>
      have hstart : text.toList = m.char :: inner := hb.dropWhile.symm.trans hs
      refine ⟨?_, ?_⟩
      · apply Pattern.template_bare hread
        rw [hstart] at hb
        exact (List.forall_mem_cons.mp hb).2
      · rintro ⟨after, hafter⟩
        rw [hstart] at hafter
        obtain ⟨hchar, rfl⟩ := List.cons.inj hafter
        exact hopen (Mark.char_injective hchar.symm) rfl rfl

/-- An expression is read back from its source just if no name in it has a blank and the source
does not begin as a verbatim text does. Of expressions without blanks in their names, only equal
ones compare as equal. -/
theorem parse_source_eq_ok_iff {d : Destructor} (h : d.Accepted) :
    (Destructor.parse d.source = .ok d ↔ d.Unspaced ∧ ¬ ['[', '['] <+: d.source.toList) ∧
    ∀ e : Destructor, e.Accepted → d.Unspaced → e.Unspaced → (d == e) = true → d = e := by
  refine ⟨⟨unspaced_of_parse (bare_source h), fun hd => parse_source h hd.1 hd.2⟩, ?_⟩
  intro e he hdnames henames heq
  have hsource : d.source = e.source := eq_of_beq heq
  obtain ⟨m, body, -, hd, hread⟩ := exists_body_of_accepted h hdnames
  obtain ⟨m', body', -, he, hread'⟩ := exists_body_of_accepted he henames
  rw [hsource, he] at hd
  obtain ⟨hchar, rfl⟩ := List.cons.inj hd
  obtain rfl := Mark.char_injective hchar
  have htemplate := (hread _ (Nat.le_refl _)).symm.trans (hread' _ (Nat.le_refl _))
  obtain ⟨shape, source⟩ := d
  obtain ⟨shape', source'⟩ := e
  cases htemplate
  cases hsource
  rfl

/-- Blanks around names, escapes and a comma behind the last property make no difference. -/
theorem parse_source_of_escaped_names :
    let d : Destructor := ⟨.object [.bound "a.b" (.nested (.array [.name "x", .name "0"])),
      .plain "\\"], r"{a\.b:[x,0],\\,}"⟩
    let e : Destructor := ⟨.object [.bound "a.b" (.nested (.array [.name "x", .name "0"])),
      .plain "\\"], d.source⟩
    Destructor.parse r" { a\.b : [x , 0] , \\ , } " = .ok d ∧
      Destructor.parse r"{a\.b:[ x,0 ],\\,}" = .ok e ∧
      d.Unspaced ∧ ¬ ['[', '['] <+: d.source.toList ∧ Destructor.parse d.source = .ok d ∧
      d = e := by
  intro d e
  have hd : Destructor.parse r" { a\.b : [x , 0] , \\ , } " = .ok d := by decide +kernel
  have he : Destructor.parse r"{a\.b:[ x,0 ],\\,}" = .ok e := by decide +kernel
  have hnames : d.Unspaced := by decide
  have hopen : ¬ ['[', '['] <+: d.source.toList := by decide
  obtain ⟨hparse, heq⟩ := parse_source_eq_ok_iff (accepted_of_parse hd)
  exact ⟨hd, he, hnames, hopen, hparse.mpr ⟨hnames, hopen⟩,
    heq e (accepted_of_parse he) hnames (by decide) (by decide)⟩

/-- A blank that a name was read with is dropped from the source, and so is one that kept two
brackets apart. -/
theorem parse_source_of_dropped_blanks :
    let spaced : Destructor := ⟨.object [.plain "a b"], r"{a\b}"⟩
    let plain : Destructor := ⟨.object [.plain "ab"], r"{a\b}"⟩
    let nested : Destructor := ⟨.array [.nested (.array [.name "x"])], "[[x]]"⟩
    Destructor.parse r"{a\ b}" = .ok spaced ∧
      Destructor.parse spaced.source = .ok plain ∧ spaced.rules ≠ plain.rules ∧
      (spaced == plain) = true ∧
      Destructor.parse "[ [x]]" = .ok nested ∧
      Destructor.parse nested.source = .error (.notDestructor "[[x]]") := by
  intro spaced plain nested
  have hspaced : Destructor.parse r"{a\ b}" = .ok spaced := by decide +kernel
  have hplain : Destructor.parse r"{a\b}" = .ok plain := by decide +kernel
  have hnested : Destructor.parse "[ [x]]" = .ok nested := by decide +kernel
  have hverbatim : Destructor.parse "[[x]]" = .error (.notDestructor "[[x]]") := by decide +kernel
  exact ⟨hspaced, hplain, by decide, by decide, hnested, hverbatim⟩

end Destructor

end DocPath
