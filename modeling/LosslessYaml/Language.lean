import LosslessYaml.Fold
import LosslessYaml.Frontmatter
import LosslessYaml.Grammar.Stream
import LosslessYaml.Indent

namespace LosslessYaml

/-- `fences` is the outer language of documents with metadata: it only finds the dash lines. -/
inductive Language : Type
  | yaml
  | text
  | fences
  deriving DecidableEq

structure LinePattern : Type where
  source : String
  accepts : List Char → Bool

def LinePattern.closingBracket : LinePattern where
  source := "^\\s*[\\]\\\x7d]$"
  accepts line := Text.trimStart line = [']'] || Text.trimStart line = ['}']

structure Profile : Type where
  name : String
  lineComment : Option String := none
  reindentOn : Option LinePattern := none

def Profile.reindents (p : Profile) (line : List Char) : Bool := p.reindentOn.any (·.accepts line)

namespace Language

def name : Language → String
  | .yaml => "yaml"
  | .text => "text"
  | .fences => "frontmatter"

def profile : Language → Profile
  | .yaml => { name := "yaml", lineComment := some "#", reindentOn := some .closingBracket }
  | l => { name := l.name }

def parse : Language → List Char → Tree
  | .yaml => LosslessYaml.parse
  | .text => Frontmatter.textNode .body
  | .fences => Frontmatter.parse

def indent (l : Language) (root : Tree) (d : Document) (pos unit : Nat) : Except Fault (Option Nat) :=
  match l with
  | .yaml => (Cursor.ofOffset root d pos unit).indent
  | _ => .ok none

def folds (l : Language) (root : Tree) (d : Document) : List Fold :=
  match l with
  | .yaml => Fold.all root d
  | _ => []

end Language

structure Bundle : Type where
  language : Language
  extensions : List String := []

end LosslessYaml
