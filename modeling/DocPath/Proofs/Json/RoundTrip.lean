import DocPath.Proofs.Document.Prune
import DocPath.Proofs.Json.Scalars
import DocPath.Store.Load
import DocPath.Store.Save
import Mathlib.Data.List.DropRight

/-! # Documents read back from JSON

The text of a document, compact or indented, is read as this document, if its numbers are whole
and it is not nested deeper than a reader goes. -/

namespace DocPath

namespace Document

/-! ## Depths and numbers -/

mutual

/-- How many containers stand inside each other. -/
def depth : Document → Nat
  | array items => itemsDepth items + 1
  | object entries => entriesDepth entries + 1
  | null | bool _ | number _ | text _ => 0

def itemsDepth : List Document → Nat
  | [] => 0
  | item :: rest => max item.depth (itemsDepth rest)

def entriesDepth : List (String × Document) → Nat
  | [] => 0
  | (_, value) :: rest => max value.depth (entriesDepth rest)

end

theorem itemsDepth_le_iff {items : List Document} {n : Nat} :
    itemsDepth items ≤ n ↔ ∀ item ∈ items, item.depth ≤ n := by
  induction items with
  | nil => simp [itemsDepth]
  | cons item items ih => simp [itemsDepth, ih]

theorem entriesDepth_le_iff {entries : List (String × Document)} {n : Nat} :
    entriesDepth entries ≤ n ↔ ∀ entry ∈ entries, entry.2.depth ≤ n := by
  induction entries with
  | nil => simp [entriesDepth]
  | cons entry entries ih => simp [entriesDepth, ih]

/-- All numbers are whole, and each fits a machine word, with or without sign. -/
inductive Whole : Document → Prop where
  | null : Whole null
  | bool (value : Bool) : Whole (bool value)
  | number {n : Int} : Json.FitsWord n → Whole (number (.whole n))
  | text (value : String) : Whole (text value)
  | array {items : List Document} : (∀ item ∈ items, Whole item) → Whole (array items)
  | object {entries : List (String × Document)} : (∀ entry ∈ entries, Whole entry.2) →
      Whole (object entries)

/-- Entries with different names are put together as they are. -/
theorem ofEntries_of_nodup {entries : List (String × Document)}
    (h : (entries.map Prod.fst).Nodup) : ofEntries entries = object entries := by
  have hfold : ∀ old : List (String × Document), ((old ++ entries).map Prod.fst).Nodup →
      entries.foldl (fun acc e => putEntry e.1 e.2 acc) old = old ++ entries := by
    induction entries with
    | nil => exact fun old _ => (List.append_nil old).symm
    | cons entry entries ih =>
        intro old hold
        have hnew : entry.1 ∉ old.map Prod.fst := (notMem_of_nodup_append_cons hold).1
        have hrest : (entries.map Prod.fst).Nodup := (List.nodup_cons.mp h).2
        have hold' : old ++ entry :: entries = old ++ [entry] ++ entries := by
          rw [List.append_assoc, List.singleton_append]
        rw [hold'] at hold ⊢
        rw [List.foldl_cons, putEntry_of_notMem hnew]
        exact ih hrest _ hold
  exact congrArg object (hfold [] h)

end Document

namespace Json

/-! ## Spaces -/

theorem isSpace_of_mem_newline {spacing : Spacing} {level : Nat} {c : Char}
    (h : c ∈ spacing.newline level) : isSpace c = true := by
  cases spacing with
  | compact => cases h
  | indented width =>
      rcases List.mem_cons.mp h with rfl | h
      · rfl
      · rw [List.eq_of_mem_replicate h]
        rfl

theorem skipSpace_append {gap : List Char} (h : ∀ c ∈ gap, isSpace c = true) (text : List Char) :
    skipSpace (gap ++ text) = skipSpace text :=
  List.dropWhile_append_of_pos h

theorem skipSpace_cons {c : Char} (h : isSpace c = false) (text : List Char) :
    skipSpace (c :: text) = c :: text :=
  List.dropWhile_cons_of_neg (by simp [h])

theorem skipSpace_skipSpace (text : List Char) : skipSpace (skipSpace text) = skipSpace text :=
  List.dropWhile_idempotent _ _

theorem value_skipSpace (fuel depth : Nat) (text : List Char) :
    value fuel depth (skipSpace text) = value fuel depth text := by
  cases fuel with
  | zero => rfl
  | succ fuel => rw [value, value, skipSpace_skipSpace]

theorem items_skipSpace (fuel depth : Nat) (text : List Char) :
    items fuel depth (skipSpace text) = items fuel depth text := by
  cases fuel with
  | zero => rfl
  | succ fuel => rw [items, items, value_skipSpace]

theorem entries_skipSpace (fuel depth : Nat) (text : List Char) :
    entries fuel depth (skipSpace text) = entries fuel depth text := by
  cases fuel with
  | zero => rfl
  | succ fuel => rw [entries, entries, skipSpace_skipSpace]

theorem value_append {gap : List Char} (h : ∀ c ∈ gap, isSpace c = true) (fuel depth : Nat)
    (text : List Char) : value fuel depth (gap ++ text) = value fuel depth text := by
  rw [← value_skipSpace, skipSpace_append h, value_skipSpace]

/-! ## Scalars -/

theorem value_textChars (fuel depth : Nat) (s : String) (rest : List Char) :
    value (fuel + 1) depth (textChars s ++ rest) = some (.text s, rest) := by
  have htext : textChars s ++ rest = '"' :: (s.toList.flatMap escape ++ '"' :: rest) := by
    simp [textChars]
  rw [htext, value, skipSpace_cons (by decide)]
  simp only [textBody_flatMap_escape, Option.map_some, String.ofList_toList]

theorem value_of_number {c : Char} (h : c = '-' ∨ c.isDigit = true) (fuel depth : Nat)
    (text : List Char) : value (fuel + 1) depth (c :: text) =
      (number (c :: text)).map fun r => (.number r.1, r.2) := by
  have hspace : isSpace c = false := by
    by_contra hc
    simp only [isSpace, Bool.not_eq_false, Bool.or_eq_true, beq_iff_eq] at hc
    rcases hc with ((rfl | rfl) | rfl) | rfl <;> exact absurd h (by decide)
  rw [value, skipSpace_cons hspace]
  split
  case h_1 heq => cases heq
  case h_8 => rfl
  all_goals
    rename_i heq
    cases heq
    exact absurd h (by decide)

theorem value_wholeText {n : Int} (hn : FitsWord n) {rest : List Char} (h : Closes rest)
    (fuel depth : Nat) :
    value (fuel + 1) depth (Number.wholeText n ++ rest) = some (.number (.whole n), rest) := by
  have hread := number_wholeText hn h
  obtain ⟨c, text, heq, hc⟩ := exists_cons_wholeText n
  rw [heq, List.cons_append] at hread ⊢
  rw [value_of_number hc, hread, Option.map_some]

/-! ## Parts between brackets -/

/-- What follows the opening bracket of parts. -/
def joined (spacing : Spacing) (level : Nat) (closing : Char) (parts : List (List Char)) :
    List Char :=
  [','].intercalate (parts.map (spacing.newline (level + 1) ++ ·)) ++ spacing.newline level ++
    [closing]

section

variable {spacing : Spacing} {level fuel depth : Nat}

theorem bracketed_cons (opening closing : Char) (part : List Char) (parts : List (List Char)) :
    bracketed spacing level opening closing (part :: parts) =
      opening :: joined spacing level closing (part :: parts) :=
  rfl

theorem joined_singleton (closing : Char) (part : List Char) :
    joined spacing level closing [part] =
      spacing.newline (level + 1) ++ (part ++ (spacing.newline level ++ [closing])) := by
  simp [joined]

theorem joined_cons_cons (closing : Char) (part next : List Char) (parts : List (List Char)) :
    joined spacing level closing (part :: next :: parts) = spacing.newline (level + 1) ++
      (part ++ ',' :: joined spacing level closing (next :: parts)) := by
  simp [joined]

theorem closes_newline_append {closing : Char} (h : closing = ']' ∨ closing = '}')
    (rest : List Char) : Closes (spacing.newline level ++ closing :: rest) := by
  cases spacing with
  | compact => rcases h with rfl | rfl <;> simp [Spacing.newline, Closes]
  | indented width => simp [Spacing.newline, Closes]

theorem skipSpace_newline_append {closing : Char} (h : closing = ']' ∨ closing = '}')
    (rest : List Char) :
    skipSpace (spacing.newline level ++ closing :: rest) = closing :: rest := by
  rw [skipSpace_append fun _ => isSpace_of_mem_newline]
  rcases h with rfl | rfl <;> rfl

/-- Parts are read up to the closing bracket where each of them is read in front of a comma and in
front of this bracket. -/
theorem read_joined {α : Type} {part : α → List Char} {closing : Char}
    {read : Nat → List Char → Option (List α × List Char)}
    (hclosing : closing = ']' ∨ closing = '}') {all : List α} (hne : all ≠ [])
    (hcomma : ∀ a ∈ all, ∀ fuel more rest rest' rest'', 2 * (part a).length < fuel →
      Closes rest → skipSpace rest = ',' :: rest' → read fuel rest' = some (more, rest'') →
      read (fuel + 1) (spacing.newline (level + 1) ++ (part a ++ rest)) = some (a :: more, rest''))
    (hend : ∀ a ∈ all, ∀ fuel rest rest', 2 * (part a).length < fuel →
      Closes rest → skipSpace rest = closing :: rest' →
      read (fuel + 1) (spacing.newline (level + 1) ++ (part a ++ rest)) = some ([a], rest'))
    (hfuel : 2 * (joined spacing level closing (all.map part)).length < fuel)
    (rest : List Char) :
    read fuel (joined spacing level closing (all.map part) ++ rest) = some (all, rest) := by
  induction all generalizing fuel with
  | nil => exact absurd rfl hne
  | cons a more ih =>
      obtain ⟨hcommaFirst, hcommaMore⟩ := List.forall_mem_cons.mp hcomma
      obtain ⟨hendFirst, hendMore⟩ := List.forall_mem_cons.mp hend
      obtain ⟨fuel, rfl⟩ := Nat.exists_eq_succ_of_ne_zero (Nat.ne_zero_of_lt hfuel)
      cases more with
      | nil =>
          rw [List.map_singleton, joined_singleton] at hfuel ⊢
          simp only [List.length_append, List.length_singleton] at hfuel
          simp only [List.append_assoc, List.singleton_append]
          apply hendFirst
          · omega
          · exact closes_newline_append hclosing rest
          · exact skipSpace_newline_append hclosing rest
      | cons next more =>
          rw [List.map_cons, List.map_cons, joined_cons_cons, ← List.map_cons] at hfuel ⊢
          simp only [List.length_append, List.length_cons] at hfuel
          simp only [List.append_assoc, List.cons_append]
          apply hcommaFirst
          · omega
          · simp [Closes]
          · exact skipSpace_cons (by decide) _
          · exact ih (List.cons_ne_nil _ _) hcommaMore hendMore (by omega)

/-! ## Arrays and objects -/

/-- A document is read back from its text, wherever this stands and whatever closes it. -/
def Reads (spacing : Spacing) (doc : Document) : Prop :=
  ∀ level depth fuel rest, doc.depth ≤ depth → 2 * (chars spacing level doc).length < fuel →
    Closes rest → value fuel depth (chars spacing level doc ++ rest) = some (doc, rest)

theorem Reads.value_newline_append {doc : Document} (h : Reads spacing doc) {rest : List Char}
    (hdepth : doc.depth ≤ depth) (hfuel : 2 * (chars spacing level doc).length < fuel)
    (hrest : Closes rest) :
    value fuel depth (spacing.newline level ++ (chars spacing level doc ++ rest)) =
      some (doc, rest) := by
  rw [value_append fun _ => isSpace_of_mem_newline]
  exact h level depth fuel rest hdepth hfuel hrest

section

variable {text rest rest' rest'' : List Char} {item : Document} {more : List Document}

theorem items_of_comma (hitem : value fuel depth text = some (item, rest))
    (hcomma : skipSpace rest = ',' :: rest')
    (hmore : items fuel depth rest' = some (more, rest'')) :
    items (fuel + 1) depth text = some (item :: more, rest'') := by
  simp [items, hitem, hcomma, hmore]

theorem items_of_bracket (hitem : value fuel depth text = some (item, rest))
    (hend : skipSpace rest = ']' :: rest') :
    items (fuel + 1) depth text = some ([item], rest') := by
  simp [items, hitem, hend]

end

theorem items_joined {docs : List Document} (hne : docs ≠ [])
    (hreads : ∀ doc ∈ docs, Reads spacing doc) (hdepth : ∀ doc ∈ docs, doc.depth ≤ depth)
    (hfuel : 2 * (joined spacing level ']' (docs.map (chars spacing (level + 1)))).length < fuel)
    (rest : List Char) :
    items fuel depth (joined spacing level ']' (docs.map (chars spacing (level + 1))) ++ rest) =
      some (docs, rest) := by
  have hvalue : ∀ doc ∈ docs, ∀ fuel rest, 2 * (chars spacing (level + 1) doc).length < fuel →
      Closes rest → value fuel depth
        (spacing.newline (level + 1) ++ (chars spacing (level + 1) doc ++ rest)) =
          some (doc, rest) :=
    fun doc hmem _ _ hfuel hrest =>
      (hreads doc hmem).value_newline_append (hdepth doc hmem) hfuel hrest
  apply read_joined (Or.inl rfl) hne _ _ hfuel
  · intro doc hmem fuel more rest rest' rest'' hfuel hrest hcomma hmore
    exact items_of_comma (hvalue doc hmem fuel rest hfuel hrest) hcomma hmore
  · intro doc hmem fuel rest rest' hfuel hrest hend
    exact items_of_bracket (hvalue doc hmem fuel rest hfuel hrest) hend

/-- The text of an entry: its name and its value. -/
def entryChars (spacing : Spacing) (level : Nat) (entry : String × Document) : List Char :=
  textChars entry.1 ++ spacing.colon ++ chars spacing level entry.2

theorem chars_object (entries : List (String × Document)) :
    chars spacing level (.object entries) =
      bracketed spacing level '{' '}' (entries.map (entryChars spacing (level + 1))) := by
  rw [chars]
  rfl

theorem length_chars_lt_length_entryChars (entry : String × Document) :
    (chars spacing level entry.2).length < (entryChars spacing level entry).length := by
  simp only [entryChars, textChars, List.length_append, List.length_cons]
  omega

theorem value_colon_append {doc : Document} (h : Reads spacing doc) {rest : List Char}
    (hdepth : doc.depth ≤ depth) (hfuel : 2 * (chars spacing level doc).length < fuel)
    (hrest : Closes rest) :
    ∃ text, skipSpace (spacing.colon ++ (chars spacing level doc ++ rest)) = ':' :: text ∧
      value fuel depth text = some (doc, rest) := by
  have hread := h level depth fuel rest hdepth hfuel hrest
  cases spacing with
  | compact => exact ⟨_, rfl, hread⟩
  | indented width =>
      refine ⟨[' '] ++ (chars (.indented width) level doc ++ rest), rfl, ?_⟩
      rw [value_append (by simp [isSpace]), hread]

/-- An entry is read in three steps: its name, the colon, and its value. -/
theorem entryChars_append {entry : String × Document} (h : Reads spacing entry.2)
    {rest : List Char} (hdepth : entry.2.depth ≤ depth)
    (hfuel : 2 * (entryChars spacing level entry).length < fuel) (hrest : Closes rest) :
    ∃ name behind text,
      skipSpace (spacing.newline level ++ (entryChars spacing level entry ++ rest)) =
        '"' :: name ∧
      textBody name = some (entry.1.toList, behind) ∧ skipSpace behind = ':' :: text ∧
      value fuel depth text = some (entry.2, rest) := by
  have hshorter : 2 * (chars spacing level entry.2).length < fuel :=
    (Nat.mul_lt_mul_of_pos_left (length_chars_lt_length_entryChars entry) (by decide)).trans hfuel
  obtain ⟨text, hcolon, hvalue⟩ := value_colon_append h hdepth hshorter hrest
  refine ⟨_, _, text, ?_, textBody_flatMap_escape entry.1.toList _, hcolon, hvalue⟩
  rw [skipSpace_append fun _ => isSpace_of_mem_newline, ← skipSpace_cons (c := '"') (by decide)]
  simp [entryChars, textChars]

section

variable {entry : String × Document} {more : List (String × Document)}
  {rest rest' rest'' : List Char} (h : Reads spacing entry.2) (hdepth : entry.2.depth ≤ depth)
  (hfuel : 2 * (entryChars spacing level entry).length < fuel) (hrest : Closes rest)

include h hdepth hfuel hrest

theorem entries_of_comma (hcomma : skipSpace rest = ',' :: rest')
    (hmore : entries fuel depth rest' = some (more, rest'')) :
    entries (fuel + 1) depth (spacing.newline level ++ (entryChars spacing level entry ++ rest)) =
      some (entry :: more, rest'') := by
  obtain ⟨name, behind, text, hname, hbody, hcolon, hvalue⟩ :=
    entryChars_append h hdepth hfuel hrest
  simp [entries, hname, hbody, hcolon, hvalue, hcomma, hmore]

theorem entries_of_brace (hend : skipSpace rest = '}' :: rest') :
    entries (fuel + 1) depth (spacing.newline level ++ (entryChars spacing level entry ++ rest)) =
      some ([entry], rest') := by
  obtain ⟨name, behind, text, hname, hbody, hcolon, hvalue⟩ :=
    entryChars_append h hdepth hfuel hrest
  simp [entries, hname, hbody, hcolon, hvalue, hend]

end

theorem entries_joined {docs : List (String × Document)} (hne : docs ≠ [])
    (hreads : ∀ entry ∈ docs, Reads spacing entry.2)
    (hdepth : ∀ entry ∈ docs, entry.2.depth ≤ depth)
    (hfuel : 2 * (joined spacing level '}' (docs.map (entryChars spacing (level + 1)))).length <
      fuel) (rest : List Char) :
    entries fuel depth
        (joined spacing level '}' (docs.map (entryChars spacing (level + 1))) ++ rest) =
      some (docs, rest) := by
  apply read_joined (Or.inr rfl) hne _ _ hfuel
  · intro entry hmem fuel more rest rest' rest'' hfuel hrest hcomma hmore
    exact entries_of_comma (hreads entry hmem) (hdepth entry hmem) hfuel hrest hcomma hmore
  · intro entry hmem fuel rest rest' hfuel hrest hend
    exact entries_of_brace (hreads entry hmem) (hdepth entry hmem) hfuel hrest hend

/-! ## Whole documents -/

theorem items_bracket (fuel depth : Nat) (rest : List Char) :
    items fuel depth (']' :: rest) = none := by
  match fuel with
  | 0 | 1 | fuel + 2 => rfl

theorem value_array_of_items {docs : List Document} {text rest : List Char}
    (h : items fuel depth text = some (docs, rest)) :
    value (fuel + 1) (depth + 1) ('[' :: text) = some (.array docs, rest) := by
  rw [← items_skipSpace] at h
  rw [value, skipSpace_cons (by decide)]
  simp only
  split
  case h_1 heq =>
    rw [heq, items_bracket] at h
    cases h
  case h_2 => rw [h, Option.map_some]

theorem value_object_of_entries {docs : List (String × Document)} {text rest : List Char}
    (h : entries fuel depth text = some (docs, rest)) :
    value (fuel + 1) (depth + 1) ('{' :: text) = some (Document.ofEntries docs, rest) := by
  rw [← entries_skipSpace] at h
  rw [value, skipSpace_cons (by decide)]
  simp only
  split
  case h_1 heq =>
    rw [heq] at h
    cases fuel with
    | zero => cases h
    | succ fuel => cases h
  case h_2 => rw [h, Option.map_some]

end

theorem reads_of_whole {doc : Document} (hwhole : doc.Whole) (hdistinct : doc.Distinct)
    (spacing : Spacing) : Reads spacing doc := by
  induction hwhole with
  | null =>
      intro level depth fuel rest _ hfuel _
      obtain ⟨fuel, rfl⟩ := Nat.exists_eq_succ_of_ne_zero (Nat.ne_zero_of_lt hfuel)
      rw [chars]
      rfl
  | bool b =>
      intro level depth fuel rest _ hfuel _
      obtain ⟨fuel, rfl⟩ := Nat.exists_eq_succ_of_ne_zero (Nat.ne_zero_of_lt hfuel)
      cases b with
      | true | false =>
          rw [chars]
          rfl
  | number hn =>
      intro level depth fuel rest _ hfuel hrest
      obtain ⟨fuel, rfl⟩ := Nat.exists_eq_succ_of_ne_zero (Nat.ne_zero_of_lt hfuel)
      rw [chars]
      exact value_wholeText hn hrest fuel depth
  | text s =>
      intro level depth fuel rest _ hfuel _
      obtain ⟨fuel, rfl⟩ := Nat.exists_eq_succ_of_ne_zero (Nat.ne_zero_of_lt hfuel)
      rw [chars]
      exact value_textChars fuel depth s rest
  | @array items _ ih =>
      intro level depth fuel rest hdepth hfuel hrest
      rw [Document.depth] at hdepth
      obtain ⟨fuel, rfl⟩ := Nat.exists_eq_succ_of_ne_zero (Nat.ne_zero_of_lt hfuel)
      obtain ⟨depth, rfl⟩ := Nat.exists_eq_succ_of_ne_zero (Nat.ne_zero_of_lt hdepth)
      have hdepth := Document.itemsDepth_le_iff.mp (Nat.le_of_succ_le_succ hdepth)
      have hreads : ∀ item ∈ items, Reads spacing item := fun item hmem =>
        ih item hmem (Document.distinct_array_iff.mp hdistinct item hmem)
      rw [chars] at hfuel ⊢
      cases items with
      | nil => rfl
      | cons item items =>
          rw [List.map_cons, bracketed_cons, ← List.map_cons] at hfuel ⊢
          rw [List.length_cons] at hfuel
          refine value_array_of_items (items_joined ?_ hreads hdepth ?_ rest)
          · exact List.cons_ne_nil _ _
          · omega
  | @object entries _ ih =>
      intro level depth fuel rest hdepth hfuel hrest
      rw [Document.depth] at hdepth
      obtain ⟨fuel, rfl⟩ := Nat.exists_eq_succ_of_ne_zero (Nat.ne_zero_of_lt hfuel)
      obtain ⟨depth, rfl⟩ := Nat.exists_eq_succ_of_ne_zero (Nat.ne_zero_of_lt hdepth)
      have hdepth := Document.entriesDepth_le_iff.mp (Nat.le_of_succ_le_succ hdepth)
      obtain ⟨hnodup, hdistinct⟩ := Document.distinct_object_iff.mp hdistinct
      have hreads : ∀ entry ∈ entries, Reads spacing entry.2 := fun entry hmem =>
        ih entry hmem (hdistinct entry hmem)
      rw [chars_object] at hfuel ⊢
      cases entries with
      | nil => rfl
      | cons entry entries =>
          rw [List.map_cons, bracketed_cons, ← List.map_cons] at hfuel ⊢
          rw [List.length_cons] at hfuel
          rw [← Document.ofEntries_of_nodup hnodup]
          refine value_object_of_entries (entries_joined ?_ hreads hdepth ?_ rest)
          · exact List.cons_ne_nil _ _
          · omega

/-! ## The end of a text -/

theorem getLast?_bracketed (spacing : Spacing) (level : Nat) (opening closing : Char)
    (parts : List (List Char)) :
    (bracketed spacing level opening closing parts).getLast? = some closing := by
  cases parts with
  | nil => rfl
  | cons part parts => simp [bracketed_cons, joined, List.getLast?_cons]

theorem newline_notMem_wholeText (n : Int) : '\n' ∉ Number.wholeText n := by
  have hdigits : '\n' ∉ Nat.toDigits 10 n.natAbs := fun hmem =>
    absurd (Nat.isDigit_of_mem_toDigits (by decide) (by decide) hmem) (by decide)
  rw [Number.wholeText]
  split
  · exact List.not_mem_cons_of_ne_of_not_mem (by decide) hdigits
  · exact hdigits

theorem getLast?_chars_ne {doc : Document} (h : doc.Whole) (spacing : Spacing) (level : Nat) :
    (chars spacing level doc).getLast? ≠ some '\n' := by
  cases h with
  | null =>
      rw [chars]
      decide
  | bool b =>
      cases b with
      | true | false =>
          rw [chars]
          decide
  | @number n _ =>
      rw [chars]
      intro hlast
      exact newline_notMem_wholeText n (List.mem_of_getLast? hlast)
  | text s =>
      rw [chars, textChars]
      simp [List.getLast?_cons]
  | array | object =>
      rw [chars, getLast?_bracketed]
      decide

end Json

/-- How a configuration spaces JSON. -/
def Config.spacing (config : Config) : Json.Spacing :=
  if config.pretty then .indented config.indentSize else .compact

namespace Document

theorem toList_render_json {doc : Document} (h : doc.Whole) (config : Config) :
    (doc.render .json config).toList = Json.chars config.spacing 0 doc ++ ['\n'] := by
  have htext : doc.render .json config =
      endLastLine (String.ofList (Json.chars config.spacing 0 doc)) := by
    rw [render, Config.spacing]
    cases config.pretty <;> rfl
  rw [htext, endLastLine, String.toList_ofList, if_neg (Json.getLast?_chars_ne h _ _)]
  simp

/-- What is written in JSON, in any layout, is read as the same document by the reader of JSON,
with nothing left to the reader of YAML. The text has one line end at its end. -/
theorem ofText_render_json {doc : Document} (hdepth : doc.depth < 128) (hwhole : doc.Whole)
    (hdistinct : doc.Distinct) (config : Config) :
    Document.ofJson? (doc.render .json config) = some doc ∧
      Document.ofText (doc.render .json config) = .ok doc ∧
      ∃ text, (doc.render .json config).toList = text ++ ['\n'] ∧ text.getLast? ≠ some '\n' := by
  have htext := toList_render_json hwhole config
  have hread : Document.ofJson? (doc.render .json config) = some doc := by
    have hvalue := Json.reads_of_whole hwhole hdistinct config.spacing 0 Json.depthLimit
      (2 * (Json.chars config.spacing 0 doc ++ ['\n']).length + 1) ['\n']
      (Nat.le_of_lt_succ hdepth) (by rw [List.length_append]; omega) (by simp [Json.Closes])
    rw [Document.ofJson?, htext]
    simp only [hvalue]
    rfl
  refine ⟨hread, ?_, _, htext, Json.getLast?_chars_ne hwhole _ _⟩
  rw [Document.ofText, hread]

/-- The least and the greatest number, a control in a name, and lines that are not indented. -/
theorem ofText_render_json_of_extremes :
    let doc := object [("k\n\"", array [number (.whole (-9223372036854775808)),
      number (.whole 18446744073709551615), object []]), ("", text "\x01é\\")]
    let config : Config := { indentSize := 0 }
    doc.depth < 128 ∧ doc.Whole ∧ doc.Distinct ∧
      doc.toIndentedJson 0 = r"{" ++ "\n\"k\\n\\\"\": [\n-9223372036854775808,\n" ++
        "18446744073709551615,\n{}\n],\n\"\": \"\\u0001é\\\\\"\n" ++ r"}" ∧
      Document.ofText (doc.render .json config) = .ok doc := by
  intro doc config
  have hdepth : doc.depth < 128 := by decide
  have hwhole : doc.Whole := by
    refine .object (List.forall_mem_cons.mpr ⟨.array ?_, List.forall_mem_singleton.mpr (.text _)⟩)
    simp only [List.forall_mem_cons]
    exact ⟨.number (by decide), .number (by decide), .object (by simp), List.forall_mem_nil _⟩
  have hdistinct : doc.Distinct := by
    have hnumber : ∀ n, (number n).Distinct := fun _ => .scalar rfl
    simp [doc, hnumber]
  exact ⟨hdepth, hwhole, hdistinct, by decide +kernel,
    (ofText_render_json hdepth hwhole hdistinct config).2.1⟩

end Document

end DocPath
