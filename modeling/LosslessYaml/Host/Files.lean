import LosslessYaml.Host

namespace LosslessYaml

abbrev Path : Type := List (List Char)

namespace Path

def split : List Char → Path
  | [] => [[]]
  | c :: cs =>
    if c = '/' then [] :: split cs
    else
      match split cs with
      | [] => [[c]]
      | p :: ps => (c :: p) :: ps

def isIdle (part : List Char) : Bool := part = [] || part = ['.']

def ofText (s : String) : Path := (split s.toList).filter (!isIdle ·)

end Path

/-- Files and empty directories, by path. The directories on the way are there too. -/
structure Files : Type where
  entries : List (Path × Entry)

namespace Files

def ofList (es : List (String × Entry)) : Files := ⟨es.map fun (s, e) => (Path.ofText s, e)⟩

def entryAt (f : Files) (p : Path) : Entry :=
  match f.entries.lookup p with
  | some e => e
  | none => if p.isEmpty || f.entries.any fun (q, _) => p.isPrefixOf q then .directory else .missing

/-- Follows the parts of a path. `none` is a place outside. A path that ends in a slash or a dot
must lead to a directory. -/
def follow (f : Files) : Option Path → Path → Entry
  | none, [] => .directory
  | none, part :: parts => if Path.isIdle part || part = ['.', '.'] then follow f none parts else .missing
  | some here, [] => f.entryAt here
  | some here, part :: parts =>
    match f.entryAt here with
    | .directory =>
      if Path.isIdle part then follow f (some here) parts
      else if part = ['.', '.'] then follow f (if here.isEmpty then none else some here.dropLast) parts
      else follow f (some (here ++ [part])) parts
    | .missing => .missing
    | _ => .blocked

def look (f : Files) (path : String) : Entry :=
  match path.toList with
  | [] => .missing
  | '/' :: cs => f.follow none (Path.split cs)
  | cs => f.follow (some []) (Path.split cs)

def host (f : Files) (values : List (String × String)) : Host := ⟨fun name => List.lookup name values, f.look⟩

end Files

end LosslessYaml
