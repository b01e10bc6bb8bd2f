import LosslessYaml.Toml.Quoted
import LosslessYaml.Toml.Scalar

namespace LosslessYaml.Toml

abbrev Reader (α : Type) : Type := List Char → Option (α × List Char)

namespace Reader

def blanks (s : List Char) : List Char := s.dropWhile fun c => c = ' ' || c = '\t'

def gapFrom (comment : Bool) : List Char → Option (List Char)
  | [] => some []
  | '\n' :: cs => gapFrom false cs
  | '\r' :: '\n' :: cs => gapFrom false cs
  | c :: cs =>
    if comment then if Quoted.isAllowed c then gapFrom true cs else none
    else if c = ' ' || c = '\t' then gapFrom false cs
    else if c = '#' then gapFrom true cs
    else some (c :: cs)

def gap (s : List Char) : Option (List Char) := gapFrom false s

def lineEndFrom (comment : Bool) : List Char → Option (List Char)
  | [] => some []
  | '\n' :: cs => some cs
  | '\r' :: '\n' :: cs => some cs
  | c :: cs =>
    if comment then if Quoted.isAllowed c then lineEndFrom true cs else none
    else if c = ' ' || c = '\t' then lineEndFrom false cs
    else if c = '#' then lineEndFrom true cs
    else none

def lineEnd (s : List Char) : Option (List Char) := lineEndFrom false s

def isKeyChar (c : Char) : Bool := c.isAlphanum || c = '_' || c = '-'

def key : Reader Key
  | '"' :: cs => Quoted.basic cs
  | '\'' :: cs => Quoted.literal cs
  | s =>
    let k := s.takeWhile isKeyChar
    if k.isEmpty then none else some (k, s.dropWhile isKeyChar)

def pathFrom (path : List Key) (k : Key) (s : List Char) : Option (List Key × Key × List Char) :=
  match blanks s with
  | '.' :: cs =>
    match key (blanks cs) with
    | none => none
    | some (next, rest) => if rest.length < s.length then pathFrom (path ++ [k]) next rest else none
  | rest => some (path, k, rest)
termination_by s.length

def path (s : List Char) : Option (List Key × Key × List Char) := do
  let (k, rest) ← key s
  pathFrom [] k rest

def pair (space : List Char → Option (List Char)) (value : Reader Value) : Reader (List Key × Key × Value) :=
  fun s => do
    let (ks, k, rest) ← path s
    let rest ← Scalar.expect '=' (← space rest)
    let (v, rest) ← value (← space rest)
    return ((ks, k, v), rest)

def listed {α : Type} (close : Char) (one : Reader α) (s : List Char) : Option (List α × List Char) :=
  match gap s with
  | none => none
  | some [] => none
  | some (c :: cs) =>
    if c = close then some ([], cs)
    else
      match one (c :: cs) with
      | none => none
      | some (x, rest) =>
        match gap rest with
        | some (d :: rest) =>
          if d = close then some ([x], rest)
          else if d = ',' then
            if rest.length < s.length then
              (listed close one rest).map fun (xs, rest) => (x :: xs, rest)
            else none
          else none
        | _ => none
termination_by s.length

def inlineTable (pairs : List (List Key × Key × Value)) : Option Value := do
  let es ← pairs.foldlM (fun es (ks, k, v) => Entries.insert ks k v .inline es) []
  return .table .inline es

/-- A value, with brackets and braces nested at most `depth` levels. Inside of braces a key, its
equals sign and its value may be on different lines. -/
def value : Nat → Reader Value
  | depth, '[' :: cs =>
    match depth with
    | 0 => none
    | depth + 1 => (listed ']' (value depth) cs).map fun (vs, rest) => (.array vs, rest)
  | depth, '{' :: cs =>
    match depth with
    | 0 => none
    | depth + 1 => do
      let (pairs, rest) ← listed '}' (pair gap (value depth)) cs
      return (← inlineTable pairs, rest)
  | _, s =>
    match s with
    | '"' :: _ | '\'' :: _ => (Quoted.string s).map fun (t, rest) => (.string t, rest)
    | _ => do
      let (w, rest) := Scalar.word s
      return (← Scalar.ofWord? w, rest)

def depthLimit : Nat := 80

def statement : Reader Statement
  | '[' :: '[' :: cs => do
    let (ks, k, rest) ← path (blanks cs)
    return (.element ks k, ← Scalar.expect ']' (← Scalar.expect ']' rest))
  | '[' :: cs => do
    let (ks, k, rest) ← path (blanks cs)
    return (.header ks k, ← Scalar.expect ']' rest)
  | s => do
    let ((ks, k, v), rest) ← pair (fun s => some (blanks s)) (value depthLimit) s
    return (.pair ks k v, rest)

def statements (s : List Char) : Option (List Statement) :=
  match gap s with
  | none => none
  | some [] => some []
  | some (c :: cs) =>
    match statement (c :: cs) with
    | none => none
    | some (x, rest) =>
      match lineEnd rest with
      | none => none
      | some rest => if rest.length < s.length then (statements rest).map (x :: ·) else none
termination_by s.length

def withoutMark : List Char → List Char
  | '\uFEFF' :: cs => cs
  | cs => cs

end Reader

def read (s : List Char) : Option Entries := do
  Entries.ofStatements (← Reader.statements (Reader.withoutMark s))

end LosslessYaml.Toml
