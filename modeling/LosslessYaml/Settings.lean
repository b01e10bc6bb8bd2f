import LosslessYaml.Document
import LosslessYaml.Host.Template
import LosslessYaml.Toml.Reader

namespace LosslessYaml

structure Settings : Type where
  indentUnit : Nat := 2
  tabSize : Nat := 4
  deriving DecidableEq

namespace Settings

inductive Field : Type
  | indentUnit
  | tabSize
  deriving DecidableEq

def Field.name : Field → String
  | .indentUnit => "indent_unit"
  | .tabSize => "tab_size"

inductive Unreadable : Type
  | read (e : ReadError)
  | encoding
  deriving DecidableEq

def Unreadable.message : Unreadable → String
  | .read e => e.message
  | .encoding => "stream did not contain valid UTF-8"

inductive LoadError : Type
  | unreadable (path : String) (cause : Unreadable)
  | malformed (path : String)
  | zeroWidth (path : String) (field : Field)
  deriving DecidableEq

namespace LoadError

def malformedCause : String := "TOML parse error"

def message : LoadError → String
  | .unreadable path cause => "Failed to read config file at " ++ path ++ ": " ++ cause.message
  | .malformed path => "Failed to parse config file at " ++ path ++ ": " ++ malformedCause
  | .zeroWidth path field => "Invalid config file at " ++ path ++ ": " ++ field.name ++ " must be at least 1"

def chain (e : LoadError) : List String :=
  match e with
  | .unreadable _ cause => [e.message, cause.message]
  | .malformed _ => [e.message, malformedCause]
  | .zeroWidth _ _ => [e.message]

end LoadError

/-- The value of a field in a table, the given one if the field is not there. Only a number of 32
bits will do. -/
def field? (es : Toml.Entries) (f : Field) (default : Nat) : Option Nat :=
  match es.lookup f.name.toList with
  | none => some default
  | some (.integer (.ofNat n)) => if n < columnLimit then some n else none
  | some _ => none

def ofEntries? (es : Toml.Entries) : Option Settings := do
  let d : Settings := {}
  return ⟨← field? es .indentUnit d.indentUnit, ← field? es .tabSize d.tabSize⟩

def ofText? (s : List Char) : Option Settings := do ofEntries? (← Toml.read s)

def zeroField? (s : Settings) : Option Field :=
  if s.indentUnit = 0 then some .indentUnit
  else if s.tabSize = 0 then some .tabSize
  else none

def line (f : Field) (n : Nat) : List Char := f.name.toList ++ " = ".toList ++ Text.decimal n ++ ['\n']

def toToml (s : Settings) : List Char := line .indentUnit s.indentUnit ++ line .tabSize s.tabSize

def ofBytes (path : String) (bs : List UInt8) : Except LoadError Settings :=
  match Utf8.decode bs with
  | .error _ => .error (.unreadable path .encoding)
  | .ok text =>
    match ofText? text with
    | none => .error (.malformed path)
    | some s =>
      match s.zeroField? with
      | some f => .error (.zeroWidth path f)
      | none => .ok s

def load? (h : Host) (path : String) : Except LoadError (Option Settings) :=
  let entry := h.look path
  if entry.isPresent then
    match entry.contents with
    | .error e => .error (.unreadable path (.read e))
    | .ok bs => (ofBytes path bs).map some
  else .ok none

/-- Loads settings from a path where something is, else gives the usual ones. -/
def load (h : Host) (path : String) : Except LoadError Settings := (load? h path).map (·.getD {})

def pathVariable : String := "LANG_YAML_CONFIG"

def usualPath : String := "~/.config/lang-yaml/config.toml"

def path (h : Host) : String :=
  match h.environment pathVariable with
  | some custom => h.expand custom
  | none => String.ofList (Template.expandHome h usualPath.toList)

end Settings

end LosslessYaml
