import DocPath.Proofs.Equality
import DocPath.Proofs.Store.Save
import DocPath.Store.Load

/-! # Documents read back from their files

A save looks at how the name ends, a load at its extension. A name that is nothing but an ending
has no extension. -/

namespace DocPath

/-! ## Endings and extensions -/

namespace FileName

theorem hasEnding_iff {ending name : String} :
    hasEnding ending name = true ↔
      ∃ front, name.toList.reverse = ending.toList.reverse ++ front := by
  rw [hasEnding, List.isSuffixOf_iff_suffix, ← List.reverse_prefix]
  exact exists_congr fun _ => eq_comm

theorem hasEnding_base (name : String) : hasEnding (base name) name = true := by
  rw [hasEnding_iff]
  refine ⟨name.toList.reverse.dropWhile (· != '/'), ?_⟩
  simp [base, List.takeWhile_append_dropWhile]

variable {ending name : String} {front : List Char}

/-- Read from the back, the name is the ending, a dot, and what stands before it. -/
theorem base_eq_ending_iff (h : ∀ c ∈ ending.toList, c ≠ '.' ∧ c ≠ '/')
    (hname : name.toList.reverse = ending.toList.reverse ++ '.' :: front) :
    base name = "." ++ ending ↔ front = [] ∨ front.head? = some '/' := by
  have hinside : ∀ c ∈ ending.toList.reverse, (c != '/') = true := by
    intro c hc
    simpa using (h c (List.mem_reverse.mp hc)).2
  have hother : ("." ++ ending).toList = '.' :: ending.toList := by simp
  rw [base, hname, List.takeWhile_append_of_pos hinside, ← String.toList_inj, String.toList_ofList,
    List.reverse_eq_iff, hother, List.reverse_cons, List.append_cancel_left_eq,
    List.takeWhile_cons_of_pos (by decide)]
  cases front with
  | nil => simp
  | cons c front => by_cases hc : c = '/' <;> simp [hc]

theorem extension?_of_ending (h : ∀ c ∈ ending.toList, c ≠ '.' ∧ c ≠ '/')
    (hname : name.toList.reverse = ending.toList.reverse ++ '.' :: front) :
    extension? name = if front = [] ∨ front.head? = some '/' then none else some ending := by
  have hinside : ∀ c ∈ ending.toList.reverse, (c != '.' && c != '/') = true := by
    intro c hc
    simpa using h c (List.mem_reverse.mp hc)
  rw [extension?, splitAtDot, hname, List.dropWhile_append_of_pos hinside,
    List.takeWhile_append_of_pos hinside, List.dropWhile_cons_of_neg (by decide),
    List.takeWhile_cons_of_neg (by decide)]
  by_cases hfront : front = [] ∨ front.head? = some '/' <;> simp [hfront]

theorem exists_front_of_extension? (h : extension? name = some ending) :
    ∃ front, name.toList.reverse = ending.toList.reverse ++ '.' :: front := by
  rw [extension?, splitAtDot] at h
  split at h
  · rename_i front hdrop
    refine ⟨front, ?_⟩
    split at h
    · cases h
    · obtain rfl := Option.some.inj h
      simp [← hdrop, List.takeWhile_append_dropWhile]
  · cases h

/-- An ending without dots and slashes is the extension of the names that end in it behind a dot,
but for those in which nothing stands before this dot. -/
theorem extension?_eq_some_iff (h : ∀ c ∈ ending.toList, c ≠ '.' ∧ c ≠ '/') :
    extension? name = some ending ↔
      hasEnding ("." ++ ending) name = true ∧ base name ≠ "." ++ ending := by
  have hending : hasEnding ("." ++ ending) name = true ↔
      ∃ front, name.toList.reverse = ending.toList.reverse ++ '.' :: front := by
    simp [hasEnding_iff]
  rw [hending]
  constructor
  · intro hextension
    obtain ⟨front, hname⟩ := exists_front_of_extension? hextension
    refine ⟨⟨front, hname⟩, fun hbase => ?_⟩
    rw [extension?_of_ending h hname, if_pos ((base_eq_ending_iff h hname).mp hbase)] at hextension
    cases hextension
  · rintro ⟨⟨front, hname⟩, hbase⟩
    rw [extension?_of_ending h hname, if_neg (mt (base_eq_ending_iff h hname).mpr hbase)]

end FileName

/-! ## Formats -/

/-- The texts of a document under a configuration are read back: each format by its own reader,
and JSON by the reader of YAML too. -/
structure Document.ReadsBack (doc : Document) (config : Config) : Prop where
  json : Document.ofJson? (doc.render .json config) = some doc
  yaml : Document.ofYaml? (doc.render .yaml config) = some doc
  json_as_yaml : Document.ofYaml? (doc.render .json config) = some doc

namespace Directory

/-- Only a name that asks for JSON is read as JSON, while a configuration may ask for JSON where
the name asks for nothing. -/
theorem load_of_readText {d : Directory} {name : String} {doc : Document} {config : Config}
    (hread : doc.ReadsBack config)
    (h : d.readText name =
      .ok (doc.render ((FileName.format? name).getD config.outputFormat) config)) :
    d.load name = .ok doc := by
  rw [load, h]
  cases hformat : FileName.format? name with
  | none =>
      cases houtput : config.outputFormat with
      | yaml => simp [bind, Except.bind, hread.yaml]
      | json => simp [bind, Except.bind, hread.json_as_yaml]
  | some format =>
      cases format with
      | yaml => simp [bind, Except.bind, hread.yaml]
      | json => simp [bind, Except.bind, hread.json]

theorem load_of_readText_error {d : Directory} {name : String} {fault : LoadError}
    (h : d.readText name = .error fault) : d.load name = .error fault := by
  rw [load, h]
  rfl

/-- The text of a saved document is found again unless the name is nothing but the ending of
compressed files. -/
theorem readText_of_save {name : String} {doc : Document} {config : Config}
    {before after : Directory} (h : Succeeds (save name doc config) before after) :
    after.readText name =
      if FileName.base name = ".gz" then .error .read
      else .ok (doc.render ((FileName.format? name).getD config.outputFormat) config) := by
  have hextension : FileName.extension? name = some "gz" ↔
      FileName.hasEnding ".gz" name = true ∧ FileName.base name ≠ ".gz" :=
    FileName.extension?_eq_some_iff (by simp)
  rw [readText, get?_self_of_save h, contentFor]
  by_cases hbase : FileName.base name = ".gz"
  · have hending : FileName.hasEnding ".gz" name = true := by
      rw [← hbase]
      exact FileName.hasEnding_base name
    rw [if_neg (fun hgz => (hextension.mp hgz).2 hbase), if_pos hbase, if_pos hending]
  · rw [if_neg hbase]
    cases hending : FileName.hasEnding ".gz" name with
    | true =>
        rw [if_pos (hextension.mpr ⟨hending, hbase⟩)]
        rfl
    | false =>
        rw [if_neg (fun hgz => Bool.false_ne_true (hending.symm.trans (hextension.mp hgz).1))]
        rfl

/-- The listing of a directory shows a saved document unless its name is hidden. -/
theorem mem_sorted_of_save {name : String} {doc : Document} {config : Config}
    {before after : Directory} (h : Succeeds (save name doc config) before after) :
    (name, contentFor name doc config) ∈ after.sorted ↔ FileName.isHidden name = false := by
  obtain ⟨front, behind, hfiles, -⟩ := List.lookup_eq_some_iff.mp (get?_self_of_save h)
  have hmem : (name, contentFor name doc config) ∈ after.files := by
    rw [hfiles]
    exact List.mem_append_right _ List.mem_cons_self
  rw [mem_sorted_iff]
  exact and_iff_right hmem

/-- What a save writes is read back by a load of the same name, if the formats are, unless the
name is nothing but the ending of compressed files: such a file is written compressed and read
as a text. -/
theorem load_of_save_eq_ok_iff {name : String} {doc : Document} {config : Config}
    {before after : Directory} (h : (save name doc config).run.run before = (.ok (), after))
    (hread : doc.ReadsBack config) :
    (after.load name = .ok doc ↔ FileName.base name ≠ ".gz") ∧
      (FileName.base name = ".gz" → after.load name = .error .read) := by
  have htext := readText_of_save h
  by_cases hbase : FileName.base name = ".gz"
  · rw [if_pos hbase] at htext
    have hload := load_of_readText_error htext
    refine ⟨iff_of_false ?_ (not_not_intro hbase), fun _ => hload⟩
    rw [hload]
    exact fun hok => nomatch hok
  · rw [if_neg hbase] at htext
    exact ⟨iff_of_true (load_of_readText hread htext) hbase, fun hgz => absurd hgz hbase⟩

/-- The name asks for no format, so that JSON is written and read as YAML, and the file is
compressed. -/
theorem load_save_of_unknown_format :
    let before : Directory := ⟨[("a.b.gz", .packed "old")], []⟩
    let doc : Document := .array [.text "1", .null]
    let config : Config := { outputFormat := .json, createBackup := true, indentSize := 3 }
    let after : Directory :=
      ⟨[("a.b.gz", .packed "[\n   \"1\",\n   null\n]\n"), ("a.b.gz.bak", .packed "old")], []⟩
    (save "a.b.gz" doc config).run.run before = (.ok (), after) ∧ doc.ReadsBack config ∧
      FileName.base "a.b.gz" ≠ ".gz" ∧ after.load "a.b.gz" = .ok doc := by
  intro before doc config after
  have hjson : doc.render .json config = "[\n   \"1\",\n   null\n]\n" := by decide +kernel
  have hread : doc.ReadsBack config := by constructor <;> decide +kernel
  have hcontent : contentFor "a.b.gz" doc config = .packed (doc.render .json config) := rfl
  have h : (save "a.b.gz" doc config).run.run before = (.ok (), after) := by
    rw [save, hcontent, hjson]
    rfl
  have hbase : FileName.base "a.b.gz" ≠ ".gz" := by decide
  exact ⟨h, hread, hbase, (load_of_save_eq_ok_iff h hread).1.mpr hbase⟩

/-- The name is hidden and has no extension, but its end asks for compression. -/
theorem load_save_fails_of_bare_ending :
    let after : Directory := ⟨[(".gz", .packed "[]\n")], []⟩
    (save ".gz" (.array []) {}).run.run .empty = (.ok (), after) ∧
      (Document.array []).ReadsBack {} ∧ after.sorted = [] ∧
      after.load ".gz" = .error .read := by
  intro after
  have hyaml : (Document.array []).render .yaml {} = "[]\n" := by decide +kernel
  have hcontent : contentFor ".gz" (.array []) {} =
    .packed ((Document.array []).render .yaml {}) := rfl
  have h : (save ".gz" (.array []) {}).run.run .empty = (.ok (), after) := by
    rw [save, hcontent, hyaml]
    rfl
  have hsorted : after.sorted = [] := by
    rw [sorted, List.filter_eq_nil_iff.mpr (by decide)]
    exact List.mergeSort_nil
  have hread : (Document.array []).ReadsBack {} := by constructor <;> decide +kernel
  exact ⟨h, hread, hsorted, load_of_readText_error rfl⟩

end Directory

end DocPath
