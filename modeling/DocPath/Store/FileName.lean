import DocPath.Store.Config

/-! File names, and what they say about a file and its neighbours. -/

namespace DocPath.FileName

def hasEnding (ending : String) (name : String) : Bool := ending.toList.isSuffixOf name.toList

/-- A name without an ending, if it has it. -/
def dropEnding (ending : String) (name : String) : String :=
  if hasEnding ending name then
    String.ofList (name.toList.take (name.length - ending.length))
  else name

/-- A name in front of its last dot and what stands behind it. A dot at the front of the name
divides nothing. -/
def splitAtDot (name : String) : String × Option String :=
  let reversed := name.toList.reverse
  let inside (c : Char) : Bool := c != '.' && c != '/'
  match reversed.dropWhile inside with
  | '.' :: stem =>
      if stem.isEmpty || stem.head? = some '/' then (name, none)
      else
        (String.ofList stem.reverse, some (String.ofList (reversed.takeWhile inside).reverse))
  | _ => (name, none)

def extension? (name : String) : Option String := (splitAtDot name).2

/-- The name a file has while it is written. -/
def temporary (name : String) : String := (splitAtDot name).1 ++ ".tmp"

/-- The name a file is kept under when it is written over. -/
def backup (name : String) : String := name ++ ".bak"

/-- The format a name asks for, also if the file is to be compressed. -/
def format? (name : String) : Option OutputFormat :=
  let base := dropEnding ".gz" name
  if hasEnding ".json" base then some .json
  else if hasEnding ".yaml" base || hasEnding ".yml" base then some .yaml
  else none

/-- What a name says behind its last slash. -/
def base (name : String) : String :=
  String.ofList (name.toList.reverse.takeWhile (· != '/')).reverse

/-- Names that begin with a dot are hidden. -/
def isHidden (name : String) : Bool := (base name).toList.head? == some '.'

/-- What a name says before its last slash, if it has one. -/
def folder? (name : String) : Option String :=
  match name.toList.reverse.dropWhile (· != '/') with
  | [] => none
  | _ :: folder => some (String.ofList folder.reverse)

/-- Names of more bytes than this cannot be given to a file. -/
def sizeLimit : Nat := 255

/-- Whether a file can have this name, wherever it is put. -/
def isValid (name : String) : Bool :=
  base name != "" && base name != "." && base name != ".." && !name.toList.contains '\x00' &&
    (base name).utf8ByteSize ≤ sizeLimit

end DocPath.FileName
