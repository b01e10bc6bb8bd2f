import LosslessYaml.Document
import LosslessYaml.Tree

/-!
Documents that open with metadata between two lines of three dashes. Only the boundaries are found
here: the metadata and the body are left as unparsed text.
-/

namespace LosslessYaml

/-- A text cut at its dash lines. Each dash line keeps its line break. -/
structure Frontmatter : Type where
  opening : List Char
  content : List Char
  closing : List Char
  body : List Char
  deriving DecidableEq

namespace Frontmatter

def isFence (line : List Char) : Bool := Line.chomp line = ['-', '-', '-']

/-- The first line must be a dash line, and the next one that is ends the metadata. -/
def ofLines? : List (List Char) → Option Frontmatter
  | [] => none
  | first :: lines =>
    if isFence first then
      match lines.dropWhile (!isFence ·) with
      | [] => none
      | last :: rest =>
        some ⟨first, (lines.takeWhile (!isFence ·)).flatten, last, rest.flatten⟩
    else none

def ofText? (s : List Char) : Option Frontmatter := ofLines? (Line.split s)

def leaf? (k : Kind) (s : List Char) : List Tree := if s.isEmpty then [] else [.leaf ⟨k, s⟩]

def textNode (k : Kind) (s : List Char) : Tree := .node k (leaf? .text s)

def dashLine (line : List Char) : Tree :=
  .node .dashLine
    (.leaf ⟨.directiveEnd, Line.chomp line⟩ :: leaf? .newline (line.drop (Line.chomp line).length))

def children (f : Frontmatter) : List Tree :=
  [dashLine f.opening, textNode .frontmatterContent f.content, dashLine f.closing, textNode .body f.body]

/-- The outer tree of a document. Without both dash lines all of it is body. -/
def parse (s : List Char) : Tree :=
  .node .frontmatterDocument
    (match ofText? s with
    | some f => f.children
    | none => [textNode .body s])

end Frontmatter

end LosslessYaml
