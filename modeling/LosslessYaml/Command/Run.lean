import LosslessYaml.Command

namespace LosslessYaml

inductive Source : Type
  | yaml (root : Tree)
  | mixed (tree : Mixed)

namespace Source

def ofText (s : List Char) (frontmatter : Bool) : Source :=
  if frontmatter then .mixed (FrontmatterLanguage.parse ⟨.text⟩ s) else .yaml (parse s)

def indent (d : Document) (pos unit : Nat) : Source → Except Fault (Option Nat)
  | .yaml root => Language.yaml.indent root d pos unit
  | .mixed tree => tree.indent d pos unit

def folds (d : Document) : Source → Except Fault (List Fold)
  | .yaml root => .ok (Language.yaml.folds root d)
  | .mixed tree => tree.folds d

end Source

namespace Command

def renderRegions (d : Document) : String :=
  String.join <| (FrontmatterLanguage.parse ⟨.text⟩ d.text).regions.map fun (r, a, b) =>
    r.name ++ s!" {a}..{b}\n"

def renderFold (d : Document) (f : Fold) : String :=
  let first := (d.lineHolding f.start).number
  let last := (d.lineHolding f.stop).number
  s!"{f.start}..{f.stop} lines {first}-{last}\n"

def renderFolds (d : Document) (s : Source) : Except Fault String := do
  return String.join ((← s.folds d).map (renderFold d))

def renderIndent (d : Document) (s : Source) (unit : Nat) (l : Line) : Except Fault String := do
  let n := l.number
  match ← s.indent d l.stop unit with
  | some k => return s!"{n}: {k}\n"
  | none => return s!"{n}: -\n"

def renderIndents (d : Document) (s : Source) (unit : Nat) : Except Fault String := do
  return String.join (← d.lines.mapM (renderIndent d s unit))

end Command

inductive RunError : Type
  | unreadable (file : String) (cause : ReadError)
  | undecodable (file : String) (cause : Utf8.Malformed)
  | fault (cause : Fault)
  deriving DecidableEq

def RunError.chain : RunError → List String
  | .unreadable file cause => ["Failed to read '" ++ file ++ "'", cause.message]
  | .undecodable file cause => ["Failed to load '" ++ file ++ "'", Document.unreadable cause, cause.message]
  | .fault .columnOverflow => ["Column overflow"]
  | .fault .insideCharacter => ["Offset inside of a character"]

namespace Options

def render (o : Options) (s : Settings) (d : Document) : Except Fault String :=
  match o.command with
  | .regions => .ok (Command.renderRegions d)
  | .folds => Command.renderFolds d (.ofText d.text o.frontmatter)
  | .indent => Command.renderIndents d (.ofText d.text o.frontmatter) s.indentUnit
  | .config => .ok (String.ofList s.toToml)

/-- Carries out a command. A file that is named is read, whatever the command. -/
def run (o : Options) (s : Settings) (h : Host) : Except RunError String :=
  match o.file with
  | none => .ok (String.ofList s.toToml)
  | some file =>
    match (h.look file).contents with
    | .error e => .error (.unreadable file e)
    | .ok bs =>
      match Document.ofBytes bs with
      | .error e => .error (.undecodable file e)
      | .ok d =>
        match o.render s (d.withTabSize s.tabSize) with
        | .error e => .error (.fault e)
        | .ok out => .ok out

end Options

structure Report : Type where
  exitCode : Nat := 0
  stdout : String := ""
  stderr : String := ""
  deriving DecidableEq

namespace Report

def usage : String :=
  "Usage: lang-yaml <regions|folds|indent> <file> [--frontmatter] [--config <path>]\n" ++
  "       lang-yaml config [--config <path>]"

def numbered (n : Nat) : List String → String
  | [] => ""
  | c :: cs => s!"\n    {n}: " ++ c ++ numbered (n + 1) cs

def describe : List String → String
  | [] => ""
  | [m] => m
  | [m, c] => m ++ "\n\nCaused by:\n    " ++ c
  | m :: cs => m ++ "\n\nCaused by:" ++ numbered 0 cs

def ofUsageError (e : UsageError) : Report :=
  { exitCode := 2, stderr := "Error: " ++ e.message ++ "\n" ++ usage ++ "\n" }

def ofChain (chain : List String) : Report :=
  { exitCode := 1, stderr := "Error: " ++ describe chain ++ "\n" }

/-- The whole program. The settings are loaded before the file is read. -/
def ofArgs (h : Host) (args : List String) : Report :=
  match Options.ofArgs args with
  | .error e => ofUsageError e
  | .ok o =>
    match Settings.load h (o.settingsPath h) with
    | .error e => ofChain e.chain
    | .ok s =>
      match o.run s h with
      | .error e => ofChain e.chain
      | .ok out => { stdout := out }

end Report

end LosslessYaml
