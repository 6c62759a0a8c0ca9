import DocPath.Command.Basic

/-! Commands read from arguments. Options may stand before and behind the name of a command;
behind `--` nothing is an option. -/

namespace DocPath.Arguments

/-- The options found so far. -/
structure Options where
  format : Option OutputFormat := none
  inPlace : Bool := false

/-- What an option leaves to be read: nothing, or a format in the next argument. -/
inductive Pending where
  | nothing (options : Options)
  | format (options : Options)

/-- The format can be given once. -/
def setFormat? (options : Options) (text : String) : Option Options :=
  match options.format, OutputFormat.parse text with
  | none, .ok format => some { options with format := some format }
  | _, _ => none

/-- `-i` belongs to some commands only, and can be given once. -/
def setInPlace? (changes : Bool) (options : Options) : Option Options :=
  if changes && !options.inPlace then some { options with inPlace := true } else none

/-- Letters behind a dash. What stands behind `f` is the format. -/
def letters? (changes : Bool) (options : Options) : List Char → Option Pending
  | [] => some (.nothing options)
  | 'v' :: rest => letters? changes options rest
  | 'i' :: rest => (setInPlace? changes options).bind fun options => letters? changes options rest
  | ['f'] => some (.format options)
  | 'f' :: '=' :: text => (setFormat? options (String.ofList text)).map .nothing
  | 'f' :: text => (setFormat? options (String.ofList text)).map .nothing
  | _ => none

/-- A word behind two dashes. -/
def word? (changes : Bool) (options : Options) (word : List Char) : Option Pending :=
  if word = "verbose".toList then some (.nothing options)
  else if word = "in-place".toList then (setInPlace? changes options).map .nothing
  else if word = "format".toList then some (.format options)
  else if "format=".toList.isPrefixOf word then
    (setFormat? options (String.ofList (word.drop "format=".length))).map .nothing
  else none

/-- An argument that starts with a dash. A dash alone is not an option. -/
def option? (changes : Bool) (options : Options) (argument : String) : Option (Option Pending) :=
  match argument.toList with
  | '-' :: '-' :: word => some (word? changes options word)
  | '-' :: c :: rest => some (letters? changes options (c :: rest))
  | _ => none

/-- The arguments behind the name of a command that are not options, and the options among
them. -/
def gather (changes : Bool) (options : Options) (found : List String) :
    List String → Option (List String × Options)
  | [] => some (found, options)
  | "--" :: rest => some (found ++ rest, options)
  | argument :: rest =>
      match option? changes options argument with
      | none => gather changes options (found ++ [argument]) rest
      | some none => none
      | some (some (.nothing options)) => gather changes options found rest
      | some (some (.format options)) =>
          match rest with
          | [] => none
          | text :: rest =>
              (setFormat? options text).bind fun options => gather changes options found rest

/-- The name of a file, which is not empty. -/
def file? : List String → Option (Option String)
  | [] => some none
  | [""] => none
  | [name] => some (some name)
  | _ => none

/-- A command by its name and the arguments behind it. -/
def command? (name : String) (arguments : List String) : Option (Command × Options) := do
  let (given, options) ← gather (name = "set" || name = "delete") {} [] arguments
  let command ← match name, given with
    | "get", pattern :: rest => (file? rest).map (Command.read pattern)
    | "set", pattern :: value :: rest =>
        (file? rest).map fun file => .write pattern value file options.inPlace
    | "delete", pattern :: rest =>
        (file? rest).map fun file => .remove pattern file options.inPlace
    | "exists", pattern :: rest => (file? rest).map (Command.test pattern)
    | "match", [pattern, candidate] => some (.compare pattern candidate)
    | "parse", [pattern] => some (.explain pattern)
    | _, _ => none
  return (command, options)

/-- Reads the options in front of a command, and the command. A format behind the name of the
command wins over one before it. -/
def invocation? (options : Options) : List String → Option Invocation
  | [] => none
  | argument :: rest =>
      match option? false options argument with
      | none => do
          let (command, own) ← command? argument rest
          return ⟨command, own.format.or options.format⟩
      | some none => none
      | some (some (.nothing options)) => invocation? options rest
      | some (some (.format options)) =>
          match rest with
          | [] => none
          | text :: rest => (setFormat? options text).bind fun options => invocation? options rest

/-- What is said when the arguments ask for nothing. -/
def usage : String :=
  "Usage: docpath [OPTIONS] <COMMAND>\n\n" ++
    "Commands:\n" ++
    "  get PATTERN [FILE]               Print the value at a path\n" ++
    "  set PATTERN VALUE [FILE] [-i]    Set the value at a path; VALUE is parsed as YAML\n" ++
    "  delete PATTERN [FILE] [-i]       Remove the value at a path\n" ++
    "  exists PATTERN [FILE]            Check whether a path exists\n" ++
    "  match PATTERN CANDIDATE          Match a candidate path against a pattern\n" ++
    "  parse PATTERN                    Show how a pattern compiles\n\n" ++
    "Options:\n" ++
    "  -v, --verbose            Accepted for scripts that ask for more to be logged\n" ++
    "  -f, --format <FORMAT>    Output format: yaml or json\n" ++
    "  -i, --in-place           Write the result back to FILE instead of printing it"

end DocPath.Arguments

namespace DocPath

/-- The command that a list of arguments asks for, if it asks for one. -/
def Invocation.ofArguments? (arguments : List String) : Option Invocation :=
  Arguments.invocation? {} arguments

end DocPath
