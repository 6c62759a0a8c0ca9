import DocPath.Store.Save

/-! # What a save changes

A document is written under a temporary name first, and a file that is written over may be kept
under another name. What a directory holds after that, under these three names and under all
others. -/

namespace DocPath

/-! ## Names -/

theorem FileName.getLast?_temporary (name : String) :
    (temporary name).toList.getLast? = some 'p' := by
  simp [temporary]

theorem FileName.getLast?_backup (name : String) : (backup name).toList.getLast? = some 'k' := by
  simp [backup]

theorem FileName.temporary_ne_backup (name other : String) : temporary name ≠ backup other := by
  intro h
  have hlast := congrArg (fun s => s.toList.getLast?) h
  simp [getLast?_temporary, getLast?_backup] at hlast

theorem FileName.backup_ne_self (name : String) : backup name ≠ name := by
  intro h
  have hlength := congrArg String.length h
  simp [backup] at hlength

namespace Directory

/-! ## Single changes -/

/-- What a renamed file held goes to its new name. -/
theorem get?_rename {d : Directory} {old new : String} {content : Content}
    (h : d.get? old = some content) (other : String) :
    (d.rename old new).get? other =
      if other = new then some content else if other = old then none else d.get? other := by
  rw [rename, h]
  by_cases hnew : other = new
  · rw [if_pos hnew, hnew, get?_put_self]
  · rw [if_neg hnew, get?_put_of_ne hnew]
    by_cases hold : other = old
    · rw [if_pos hold, hold, get?_erase_self]
    · rw [if_neg hold, get?_erase_of_ne hold]

/-! ## Successful steps -/

/-- The change leads from one directory to the other without a fault. -/
def Succeeds (change : SaveM Unit) (before after : Directory) : Prop :=
  change.run.run before = (.ok (), after)

theorem succeeds_bind_iff {first second : SaveM Unit} {before after : Directory} :
    Succeeds (first >>= fun _ => second) before after ↔
      ∃ between, Succeeds first before between ∧ Succeeds second between after := by
  unfold Succeeds
  rw [ExceptT.run_bind, StateT.run_bind]
  rcases first.run.run before with ⟨fault | ⟨⟩, between⟩
  · constructor
    · intro h
      cases h
    · rintro ⟨_, h, -⟩
      cases h
  · constructor
    · intro h
      exact ⟨between, rfl, h⟩
    · rintro ⟨_, h, hsecond⟩
      cases h
      exact hsecond

/-- A change that looks at the directory first does to it what it does to what it sees. -/
theorem succeeds_get_iff {change : Directory → SaveM Unit} {before after : Directory} :
    Succeeds (do change (← get)) before after ↔ Succeeds (change before) before after :=
  Iff.rfl

theorem succeeds_guarded_iff {name : String} {change : Directory → Directory} {fault : SaveError}
    {before after : Directory} :
    Succeeds (do if (← get).canHold name then modify change else throw fault) before after ↔
      before.canHold name = true ∧ after = change before := by
  rw [succeeds_get_iff]
  cases before.canHold name with
  | true =>
      rw [if_pos rfl]
      have hmodify : Succeeds (modify change) before after ↔
          (Except.ok (), change before) = ((.ok (), after) : Except SaveError Unit × Directory) :=
        Iff.rfl
      rw [hmodify, Prod.mk.injEq, eq_self, eq_self]
      exact and_congr_right fun _ => eq_comm
  | false =>
      refine iff_of_false ?_ (by simp)
      rintro ⟨⟩

theorem succeeds_write_iff {name : String} {content : Content} {fault : SaveError}
    {before after : Directory} :
    Succeeds (write name content fault) before after ↔
      before.canHold name = true ∧ after = before.put name content :=
  succeeds_guarded_iff

theorem succeeds_move_iff {old new : String} {fault : SaveError} {before after : Directory} :
    Succeeds (move old new fault) before after ↔
      before.canHold new = true ∧ after = before.rename old new :=
  succeeds_guarded_iff

theorem succeeds_pure_iff {before after : Directory} :
    Succeeds (pure ()) before after ↔ after = before := by
  constructor
  · rintro ⟨⟩
    rfl
  · rintro rfl
    rfl

theorem succeeds_keepBackup_iff {name : String} {before after : Directory} :
    Succeeds (keepBackup name) before after ↔
      (before.get? name = none ∧ after = before) ∨
      ∃ content, before.get? name = some content ∧
        before.canHold (FileName.backup name) = true ∧
        after = before.put (FileName.backup name) content := by
  rw [keepBackup, succeeds_get_iff]
  cases before.get? name with
  | none => simp [succeeds_pure_iff]
  | some content => simp [succeeds_write_iff]

/-! ## Whole saves -/

/-- A directory in which a file is also kept under the name of its backup, if that is asked for
and there is such a file. -/
def withBackup (d : Directory) (name : String) (config : Config) : Directory :=
  match config.createBackup, d.get? name with
  | true, some content => d.put (FileName.backup name) content
  | _, _ => d

/-- The files that a document is written to: the one of the name, and its backup. -/
def Owns (d : Directory) (name : String) (config : Config) (other : String) : Prop :=
  other = name ∨
    (config.createBackup = true ∧ d.get? name ≠ none ∧ other = FileName.backup name)

theorem get?_withBackup_backup {d : Directory} {name : String} {config : Config}
    {content : Content} (hbackup : config.createBackup = true) (h : d.get? name = some content) :
    (d.withBackup name config).get? (FileName.backup name) = some content := by
  simp [withBackup, hbackup, h]

theorem get?_withBackup_of_not_owns {d : Directory} {name other : String} {config : Config}
    (h : ¬ d.Owns name config other) :
    (d.withBackup name config).get? other = d.get? other := by
  unfold withBackup
  split
  · rename_i content hbackup hcontent
    apply get?_put_of_ne
    rintro rfl
    exact h (Or.inr ⟨hbackup, by simp [hcontent], rfl⟩)
  · rfl

theorem eq_withBackup_of_succeeds {name : String} {config : Config} {before after : Directory}
    (hbackup : config.createBackup = true) (h : Succeeds (keepBackup name) before after) :
    after = before.withBackup name config := by
  rcases succeeds_keepBackup_iff.mp h with ⟨hnone, rfl⟩ | ⟨content, hsome, -, rfl⟩
  · simp [withBackup, hnone]
  · simp [withBackup, hbackup, hsome]

theorem eq_rename_of_save {name : String} {doc : Document} {config : Config}
    {before after : Directory} (h : Succeeds (save name doc config) before after) :
    after = ((before.withBackup name config).put (FileName.temporary name)
      (contentFor name doc config)).rename (FileName.temporary name) name := by
  unfold save at h
  cases hbackup : config.createBackup with
  | false =>
      simp only [hbackup, Bool.false_eq_true, if_false] at h
      obtain ⟨between, hwrite, hmove⟩ := succeeds_bind_iff.mp h
      obtain ⟨-, rfl⟩ := succeeds_write_iff.mp hwrite
      obtain ⟨-, rfl⟩ := succeeds_move_iff.mp hmove
      simp [withBackup, hbackup]
  | true =>
      simp only [hbackup, if_true] at h
      obtain ⟨kept, hkeep, h⟩ := succeeds_bind_iff.mp h
      obtain ⟨between, hwrite, hmove⟩ := succeeds_bind_iff.mp h
      obtain rfl := eq_withBackup_of_succeeds hbackup hkeep
      obtain ⟨-, rfl⟩ := succeeds_write_iff.mp hwrite
      exact (succeeds_move_iff.mp hmove).2

/-- A save leaves the document under the name, and nothing under the temporary name. -/
theorem get?_of_save {name : String} {doc : Document} {config : Config}
    {before after : Directory} (h : Succeeds (save name doc config) before after)
    (other : String) :
    after.get? other =
      if other = name then some (contentFor name doc config)
      else if other = FileName.temporary name then none
      else (before.withBackup name config).get? other := by
  rw [eq_rename_of_save h, get?_rename (get?_put_self ..)]
  split
  · rfl
  · split
    · rfl
    · rename_i hother
      exact get?_put_of_ne hother ..

theorem get?_self_of_save {name : String} {doc : Document} {config : Config}
    {before after : Directory} (h : Succeeds (save name doc config) before after) :
    after.get? name = some (contentFor name doc config) := by
  rw [get?_of_save h, if_pos rfl]

theorem not_owns_temporary {d : Directory} {name : String} {config : Config}
    (h : FileName.temporary name ≠ name) : ¬ d.Owns name config (FileName.temporary name) := by
  rintro (heq | ⟨-, -, heq⟩)
  · exact h heq
  · exact FileName.temporary_ne_backup _ _ heq

theorem get?_of_save_of_not_owns {name other : String} {doc : Document} {config : Config}
    {before after : Directory} (h : Succeeds (save name doc config) before after)
    (howns : ¬ before.Owns name config other) (hother : other ≠ FileName.temporary name) :
    after.get? other = before.get? other := by
  have hne : other ≠ name := fun heq => howns (Or.inl heq)
  rw [get?_of_save h, if_neg hne, if_neg hother, get?_withBackup_of_not_owns howns]

/-- The files of others are as they were just if none is under a temporary name of its own. -/
theorem others_unchanged_iff {name : String} {doc : Document} {config : Config}
    {before after : Directory} (h : Succeeds (save name doc config) before after) :
    (∀ other, ¬ before.Owns name config other → after.get? other = before.get? other) ↔
      FileName.temporary name = name ∨ before.get? (FileName.temporary name) = none := by
  by_cases hself : FileName.temporary name = name
  · refine iff_of_true ?_ (Or.inl hself)
    intro other howns
    refine get?_of_save_of_not_owns h howns ?_
    rintro rfl
    exact howns (Or.inl hself)
  · have hgone : after.get? (FileName.temporary name) = none := by
      rw [get?_of_save h, if_neg hself, if_pos rfl]
    constructor
    · intro hsame
      exact Or.inr ((hsame _ (not_owns_temporary hself)).symm.trans hgone)
    · rintro (heq | hnone) other howns
      · exact absurd heq hself
      · by_cases htemporary : other = FileName.temporary name
        · rw [htemporary, hgone, hnone]
        · exact get?_of_save_of_not_owns h howns htemporary

/-- A save that succeeds leaves the document, compressed if the name ends so, and the backup if
one is asked for. Of the other files all are as they were, but for one under the temporary
name, which is gone; so no other file changes just if there was none. -/
theorem get?_of_save_eq_ok {name : String} {doc : Document} {config : Config}
    {before after : Directory} (h : (save name doc config).run.run before = (.ok (), after)) :
    let text := doc.render ((FileName.format? name).getD config.outputFormat) config
    after.get? name =
        some (if FileName.hasEnding ".gz" name then .packed text else .text text) ∧
      (config.createBackup = true → ∀ content, before.get? name = some content →
        after.get? (FileName.backup name) = some content) ∧
      (∀ other, ¬ before.Owns name config other → other ≠ FileName.temporary name →
        after.get? other = before.get? other) ∧
      ((∀ other, ¬ before.Owns name config other → after.get? other = before.get? other) ↔
        FileName.temporary name = name ∨ before.get? (FileName.temporary name) = none) := by
  intro text
  refine ⟨get?_self_of_save h, ?_, fun _ => get?_of_save_of_not_owns h, others_unchanged_iff h⟩
  intro hbackup content hcontent
  rw [get?_of_save h, if_neg (FileName.backup_ne_self name),
    if_neg (FileName.temporary_ne_backup name name).symm, get?_withBackup_backup hbackup hcontent]

/-- A file that is there already is kept, in place of an older backup, and written over. -/
theorem get?_save_over_old_file :
    let before : Directory := ⟨[("a.json", .text "old"), ("a.json.bak", .text "older"),
      ("a.yaml", .text "b: 1\n")], []⟩
    let config : Config := { createBackup := true, pretty := false }
    let after : Directory := ⟨[("a.json", .text "[\"x\"]\n"), ("a.json.bak", .text "old"),
      ("a.yaml", .text "b: 1\n")], []⟩
    (save "a.json" (.array [.text "x"]) config).run.run before = (.ok (), after) ∧
      config.createBackup = true ∧ before.get? "a.json" = some (.text "old") ∧
      after.get? "a.json.bak" = some (.text "old") ∧
      before.get? (FileName.temporary "a.json") = none ∧
      ¬ before.Owns "a.json" config "a.yaml" ∧ after.get? "a.yaml" = before.get? "a.yaml" := by
  intro before config after
  have hcontent : contentFor "a.json" (.array [.text "x"]) config = .text "[\"x\"]\n" := by
    decide +kernel
  have h : (save "a.json" (.array [.text "x"]) config).run.run before = (.ok (), after) := by
    rw [save, hcontent]
    rfl
  have hold : before.get? "a.json" = some (.text "old") := by decide
  have hnone : before.get? (FileName.temporary "a.json") = none := by decide
  have howns : ¬ before.Owns "a.json" config "a.yaml" := by
    simp [Owns, FileName.backup]
  obtain ⟨-, hbackup, -, hothers⟩ := get?_of_save_eq_ok h
  exact ⟨h, rfl, hold, hbackup rfl _ hold, hnone, howns, hothers.mpr (Or.inr hnone) _ howns⟩

/-- A file that happens to have the temporary name is lost. -/
theorem get?_save_loses_temporary :
    let before : Directory := ⟨[("a.tmp", .text "keep")], []⟩
    let after : Directory := ⟨[("a.json", .text "[]\n")], []⟩
    (save "a.json" (.array []) {}).run.run before = (.ok (), after) ∧
      ¬ before.Owns "a.json" {} "a.tmp" ∧ before.get? "a.tmp" = some (.text "keep") ∧
      after.get? "a.tmp" = none := by
  intro before after
  have hcontent : contentFor "a.json" (.array []) {} = .text "[]\n" := by decide +kernel
  have h : (save "a.json" (.array []) {}).run.run before = (.ok (), after) := by
    rw [save, hcontent]
    rfl
  have howns : ¬ before.Owns "a.json" {} "a.tmp" := by
    simp [Owns]
  exact ⟨h, howns, by decide, by decide⟩

end Directory

end DocPath
