/-!
TOML values, and how a document's statements build up its table. A key can be set only once, and a
table can be opened by a header only once; what may still be added to a table depends on how it
came about.
-/

namespace LosslessYaml.Toml

abbrev Key : Type := List Char

inductive Form : Type
  | inline
  | opened
  | implied
  | dotted
  deriving DecidableEq

inductive Value : Type
  | string (text : List Char)
  | integer (n : Int)
  | float (text : List Char)
  | boolean (b : Bool)
  | datetime (text : List Char)
  | array (items : List Value)
  | table (form : Form) (entries : List (Key × Value))
  | tables (elements : List (List (Key × Value)))

abbrev Entries : Type := List (Key × Value)

/-- What a line of a document says: which table the keys that follow belong to, or what a key is
set to. A key comes with the keys in front of it. -/
inductive Statement : Type
  | header (path : List Key) (key : Key)
  | element (path : List Key) (key : Key)
  | pair (path : List Key) (key : Key) (value : Value)

namespace Entries

def lookup (k : Key) (es : Entries) : Option Value := List.lookup k es

def put (k : Key) (v : Value) (es : Entries) : Entries :=
  if (lookup k es).isSome then es.map fun (k', v') => if k' = k then (k', v) else (k', v')
  else es ++ [(k, v)]

/-- Changes the table that a path leads to, and makes the tables on the way as needed. The path may
be that of a dotted key, which must not lead through a table opened by a header, or of a header.
It never leads into a value written out, and through repeated tables it leads to the last. -/
def alter (dotted : Bool) (f : Form → Entries → Option Entries) : List Key → Form → Entries → Option Entries
  | [], form, es => f form es
  | k :: ks, _, es =>
    match lookup k es with
    | none => do
      let form := if dotted then Form.dotted else .implied
      return put k (.table form (← alter dotted f ks form [])) es
    | some (.table form inner) =>
      if form = .inline || (dotted && form = .opened) then none
      else do return put k (.table form (← alter dotted f ks form inner)) es
    | some (.tables elements) =>
      match elements.getLast? with
      | none => none
      | some inner => do
        return put k (.tables (elements.dropLast ++ [← alter dotted f ks .opened inner])) es
    | some _ => none

/-- Sets a new key. A dotted key may add only to a table that dotted keys made. -/
def insert (path : List Key) (k : Key) (v : Value) (form : Form) (es : Entries) : Option Entries :=
  alter true
    (fun form es =>
      if decide (form = .dotted) == path.isEmpty || (lookup k es).isSome then none else some (es ++ [(k, v)]))
    path form es

def openTable (k : Key) (es : Entries) : Option Entries :=
  match lookup k es with
  | none => some (put k (.table .opened []) es)
  | some (.table .implied inner) => some (put k (.table .opened inner) es)
  | some _ => none

def openElement (k : Key) (es : Entries) : Option Entries :=
  match lookup k es with
  | none => some (put k (.tables [[]]) es)
  | some (.tables elements) => some (put k (.tables (elements ++ [[]])) es)
  | some _ => none

def build (here : List Key) (es : Entries) : List Statement → Option Entries
  | [] => some es
  | .header path k :: ss => do
    build (path ++ [k]) (← alter false (fun _ => openTable k) path .opened es) ss
  | .element path k :: ss => do
    build (path ++ [k]) (← alter false (fun _ => openElement k) path .opened es) ss
  | .pair path k v :: ss => do
    build here (← alter false (insert path k v) here .opened es) ss

def ofStatements (ss : List Statement) : Option Entries := build [] [] ss

end Entries

end LosslessYaml.Toml
