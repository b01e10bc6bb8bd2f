import LosslessYaml.Language

/-!
Documents in several languages. An outer language decides where the regions are; each region that
is given a language of its own is parsed again by it and mounted at its place.
-/

namespace LosslessYaml

/-- A region parsed by a nested language. Offsets in its tree count from the region's start. -/
structure Mount : Type where
  start : Nat
  stop : Nat
  language : Language
  tree : Tree

def Mount.holds (m : Mount) (pos : Nat) : Bool := m.start ≤ pos && pos ≤ m.stop

structure Mixed : Type where
  outer : Tree
  mounts : List Mount

inductive Region : Type
  | frontmatter
  | metadata
  | body
  deriving DecidableEq

namespace Region

def name : Region → String
  | .frontmatter => "Frontmatter"
  | .metadata => "Metadata"
  | .body => "Body"

def ofKind? : Kind → Option Region
  | .dashLine => some .metadata
  | .frontmatterContent => some .frontmatter
  | .body => some .body
  | _ => none

end Region

namespace Mixed

mutual

/-- The nodes that are asked for a language, in document order: all that are not below a node which
has one. -/
def askedFrom (nest : Located → Option Language) (address : List Nat) (n : Nat) : Tree → List Located
  | .leaf _ => []
  | .node k cs =>
    let here : Located := ⟨address, n, .node k cs⟩
    if (nest here).isSome then [here] else here :: askedAmong nest address 0 n cs

def askedAmong (nest : Located → Option Language) (address : List Nat) (i n : Nat) :
    List Tree → List Located
  | [] => []
  | t :: ts =>
    askedFrom nest (address ++ [i]) n t ++ askedAmong nest address (i + 1) (n + t.byteLength) ts

end

def asked (nest : Located → Option Language) (root : Tree) : List Located := askedFrom nest [] 0 root

def mount (n : Located) (l : Language) : Mount := ⟨n.start, n.stop, l, l.parse n.tree.text⟩

def parse (outer : Language) (nest : Located → Option Language) (s : List Char) : Mixed :=
  let root := outer.parse s
  ⟨root, (asked nest root).filterMap fun n => (nest n).map (mount n)⟩

def regions (m : Mixed) : List (Region × Nat × Nat) :=
  m.outer.located.children.filterMap fun n =>
    if n.tree.isNode then (Region.ofKind? n.kind).map fun r => (r, n.start, n.stop) else none

def indent (m : Mixed) (d : Document) (pos unit : Nat) : Except Fault (Option Nat) :=
  match m.mounts.find? (·.holds pos) with
  | none => .ok none
  | some r => do r.language.indent r.tree (← d.sub r.start r.stop) (pos - r.start) unit

def foldsOf (d : Document) (r : Mount) : Except Fault (List Fold) := do
  let part ← d.sub r.start r.stop
  return (r.language.folds r.tree part).map (Fold.shift r.start)

def folds (m : Mixed) (d : Document) : Except Fault (List Fold) := do
  return (← m.mounts.mapM (foldsOf d)).flatten

end Mixed

structure FrontmatterLanguage : Type where
  content : Language

namespace FrontmatterLanguage

def name : String := "yaml-frontmatter"

def profile : Profile := { name := name }

def nest (f : FrontmatterLanguage) (n : Located) : Option Language :=
  match n.kind with
  | .frontmatterContent => some .yaml
  | .body => some f.content
  | _ => none

def parse (f : FrontmatterLanguage) (s : List Char) : Mixed := Mixed.parse .fences f.nest s

end FrontmatterLanguage

structure FrontmatterBundle : Type where
  language : FrontmatterLanguage
  extensions : List String

def Bundle.withFrontmatter (b : Bundle) : FrontmatterBundle := ⟨⟨b.language⟩, b.extensions⟩

end LosslessYaml
