import DocPath.Command.Basic
import DocPath.Path.Live
import DocPath.Path.Outline

/-! Commands carried out. -/

namespace DocPath

/-- Lines of text, each with its end. -/
def unlines (lines : List String) : String := String.join (lines.map (· ++ "\n"))

namespace Command

/-! ## Documents and patterns -/

/-- Reads the document of a file, or of the input if there is any. -/
def readDocument (input : Option Content) (file : Option String) : CommandM Document := do
  match file with
  | some name =>
      match (← get).load name with
      | .ok doc => return doc
      | .error cause => throw (.load name cause)
  | none =>
      match input with
      | none => throw .noInput
      | some content =>
          match content.inputText.bind Document.ofText with
          | .ok doc => return doc
          | .error cause => throw (.input cause)

/-- Runs a computation that compiles patterns, with nothing compiled before it. -/
def compiling {α : Type} (computation : Cached α) : CommandM α :=
  match (computation.run.run .empty).1 with
  | .ok result => pure result
  | .error cause => throw (.path cause)

/-- Prints a changed document, or writes it back to its file. -/
def deliver (doc : Document) (file : Option String) (inPlace : Bool) (config : Config) :
    CommandM Report := do
  if inPlace then
    match file with
    | none => throw .noFile
    | some name =>
        let (result, directory) := (Directory.save name doc config).run (← get)
        set directory
        match result with
        | .ok _ => return .ok ""
        | .error cause => throw (.save name cause)
  else return .ok (doc.render config.outputFormat config)

/-! ## Commands -/

def execute (config : Config) (input : Option Content) : Command → CommandM Report
  | .read pattern file => do
      let doc ← readDocument input file
      match ← compiling (doc.getIn (.text pattern)) with
      | some value => return .ok (value.render config.outputFormat config)
      | none => return ⟨"", some ("No value at '" ++ pattern ++ "'")⟩
  | .write pattern value file inPlace => do
      let doc ← readDocument input file
      match Document.ofYaml? value with
      | none => throw .value
      | some value =>
          let doc ← compiling (doc.setIn (.text pattern) value)
          deliver doc file inPlace config
  | .remove pattern file inPlace => do
      let doc ← readDocument input file
      let doc ← compiling (doc.deleteIn (.text pattern))
      deliver doc file inPlace config
  | .test pattern file => do
      let doc ← readDocument input file
      let found ← compiling (doc.existIn (.text pattern) 0)
      return ⟨unlines [toString found], if found then none else some ""⟩
  | .compare pattern candidate => do
      let (record, _) ← compiling do
        let path ← Cached.compile (.text pattern)
        (LivePath.fresh path).matchRecord (.text candidate)
      return .ok (unlines
        ["matched: " ++ toString record.matched, "score: " ++ toString record.score])
  | .explain pattern => do
      let path ← compiling (Cached.compile (.text pattern))
      return .ok (unlines path.explain)

end Command

namespace Invocation

/-- Runs a command in a directory. Hands back its report and the directory as it is then. -/
def run (invocation : Invocation) (config : Config) (input : Option Content) (files : Directory) :
    Report × Directory :=
  let config := { config with
    outputFormat := invocation.format.getD config.outputFormat }
  match (invocation.command.execute config input).run files with
  | (.ok report, files) => (report, files)
  | (.error e, files) => (.failed e, files)

end Invocation

end DocPath
