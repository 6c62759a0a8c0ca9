import DocPath.Command.Arguments
import DocPath.Command.Run

/-! The command line: reads what a command needs, runs it, and writes what it changed. -/

namespace DocPath.CommandLine

/-- What a file holds, if it can be read. -/
def readContent (name : String) : IO (Option Content) := do
  match ← (IO.FS.readBinFile name).toBaseIO with
  | .ok data => return some (.ofBytes data.toList)
  | .error _ => return none

/-- The configuration in the home folder. -/
def readConfig : IO Config := do
  match ← IO.getEnv "HOME" with
  | none => return {}
  | some home =>
      match ← readContent (home ++ "/.config/docpath/config.toml") with
      | some (.text s) => return .ofText s
      | _ => return {}

/-- What is piped in. -/
def readInput : IO (Option Content) := do
  let input ← IO.getStdin
  if ← input.isTty then return none
  else return some (.ofBytes (← input.readBinToEnd).toList)

/-- Whether a folder can be found. The name of the outermost one is empty. -/
def isFolder (name : String) : IO Bool := do
  match ← (IO.FS.realPath (if name = "" then "/" else name)).toBaseIO with
  | .ok path => path.isDir
  | .error _ => return false

/-- The part of a directory that a command on a file can see: the file, the file that has its
temporary name, and the folder they are in. -/
def readDirectory (file : Option String) : IO Directory := do
  match file with
  | none => return .empty
  | some name =>
      let mut directory := Directory.empty
      for n in [FileName.temporary name, name] do
        if let some content ← readContent n then directory := directory.put n content
      if let some folder := FileName.folder? name then
        if ← isFolder folder then directory := { directory with folders := [folder] }
      return directory

/-- Writes the files that have changed, and removes those that are gone. -/
def writeChanges (before after : Directory) : IO Unit := do
  for (name, content) in after.files do
    if before.get? name != some content then
      IO.FS.writeBinFile (FileName.temporary name) ⟨content.toBytes.toArray⟩
      IO.FS.rename (FileName.temporary name) name
  for (name, _) in before.files do
    if (after.get? name).isNone then
      -- The temporary file may have been renamed already.
      let _ ← (IO.FS.removeFile name).toBaseIO

/-- Runs a command, and hands back its exit status. -/
def run (invocation : Invocation) : IO UInt32 := do
  let command := invocation.command
  let input ← if command.readsInput then readInput else pure none
  let before ← readDirectory command.file?
  let (report, after) := invocation.run (← readConfig) input before
  match ← (writeChanges before after).toBaseIO with
  | .error e =>
      IO.eprintln s!"Error: {e}"
      return 1
  | .ok _ =>
      IO.print report.output
      match report.complaint with
      | none => return 0
      | some complaint =>
          if complaint != "" then IO.eprintln complaint
          return 1

end DocPath.CommandLine

def main (arguments : List String) : IO UInt32 := do
  match DocPath.Invocation.ofArguments? arguments with
  | some invocation => DocPath.CommandLine.run invocation
  | none =>
      IO.eprintln DocPath.Arguments.usage
      return 2
