import LosslessYaml.Mixed
import LosslessYaml.Settings

namespace LosslessYaml

inductive Command : Type
  | regions
  | folds
  | indent
  | config
  deriving DecidableEq

namespace Command

def ofWord? : String → Option Command
  | "regions" => some .regions
  | "folds" => some .folds
  | "indent" => some .indent
  | "config" => some .config
  | _ => none

def name : Command → String
  | .regions => "Regions"
  | .folds => "Folds"
  | .indent => "Indent"
  | .config => "Config"

end Command

inductive UsageError : Type
  | noCommand
  | unknownCommand (word : String)
  | missingPath
  | unknownOption (word : String)
  | unexpected (word : String)
  | noFile
  deriving DecidableEq

def UsageError.message : UsageError → String
  | .noCommand => "No command given"
  | .unknownCommand w => "Unknown command '" ++ w ++ "'"
  | .missingPath => "--config needs a path"
  | .unknownOption w => "Unknown option '" ++ w ++ "'"
  | .unexpected w => "Unexpected argument '" ++ w ++ "'"
  | .noFile => "No file given"

structure Options : Type where
  command : Command
  file : Option String := none
  frontmatter : Bool := false
  configPath : Option String := none
  deriving DecidableEq

namespace Options

def isOption (word : String) : Bool := ['-', '-'].isPrefixOf word.toList

/-- Reads the arguments after the command. The argument after `--config` is taken whatever it is. -/
def readFrom (o : Options) : List String → Except UsageError Options
  | [] => .ok o
  | ["--config"] => .error .missingPath
  | "--config" :: path :: args => readFrom { o with configPath := some path } args
  | "--frontmatter" :: args => readFrom { o with frontmatter := true } args
  | word :: args =>
    if isOption word then .error (.unknownOption word)
    else if o.file.isSome then .error (.unexpected word)
    else readFrom { o with file := some word } args

def check (o : Options) : Except UsageError Options :=
  if o.command ≠ .config && o.file.isNone then .error .noFile else .ok o

def ofArgs : List String → Except UsageError Options
  | [] => .error .noCommand
  | word :: args =>
    match Command.ofWord? word with
    | none => .error (.unknownCommand word)
    | some c =>
      match readFrom { command := c } args with
      | .error e => .error e
      | .ok o => o.check

def settingsPath (o : Options) (h : Host) : String :=
  match o.configPath with
  | some path => h.expand path
  | none => Settings.path h

end Options

end LosslessYaml
