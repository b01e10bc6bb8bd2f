import LosslessYaml.Text.Decimal

namespace LosslessYaml.Toml.Quoted

def isAllowed (c : Char) : Bool := c = '\t' || (0x20 ≤ c.toNat && c.toNat ≠ 0x7F)

def letter? : Char → Option Char
  | 'b' => some '\x08'
  | 't' => some '\t'
  | 'n' => some '\n'
  | 'f' => some '\x0c'
  | 'r' => some '\r'
  | 'e' => some '\x1b'
  | '"' => some '"'
  | '\\' => some '\\'
  | _ => none

def code? (digits : List Char) : Option Char :=
  if digits.all fun c => (Text.digit? 16 c).isSome then
    match Text.number? 16 digits with
    | some n => if n.isValidChar then some (Char.ofNat n) else none
    | none => none
  else none

abbrev Read : Type := Option (List Char × List Char)

def cons (c : Char) (r : Read) : Read := r.map fun (s, rest) => (c :: s, rest)

def cons? (c : Option Char) (r : Read) : Read := c.bind (cons · r)

def basic : List Char → Read
  | '"' :: cs => some ([], cs)
  | '\\' :: 'x' :: a :: b :: cs => cons? (code? [a, b]) (basic cs)
  | '\\' :: 'u' :: a :: b :: c :: d :: cs => cons? (code? [a, b, c, d]) (basic cs)
  | '\\' :: 'U' :: a :: b :: c :: d :: e :: f :: g :: h :: cs =>
    cons? (code? [a, b, c, d, e, f, g, h]) (basic cs)
  | '\\' :: c :: cs => cons? (letter? c) (basic cs)
  | c :: cs => if isAllowed c && c ≠ '\\' then cons c (basic cs) else none
  | [] => none

def literal : List Char → Read
  | '\'' :: cs => some ([], cs)
  | c :: cs => if isAllowed c then cons c (literal cs) else none
  | [] => none

def joinsLines (cs : List Char) : Bool :=
  match cs.dropWhile fun c => c = ' ' || c = '\t' with
  | '\n' :: _ => true
  | '\r' :: '\n' :: _ => true
  | _ => false

/-- After three double quotes. Up to two quotes may stand in front of the closing three. While
`joining`, white space is dropped. -/
def multilineBasic (joining : Bool) : List Char → Read
  | '"' :: '"' :: '"' :: '"' :: '"' :: cs => some (['"', '"'], cs)
  | '"' :: '"' :: '"' :: '"' :: cs => some (['"'], cs)
  | '"' :: '"' :: '"' :: cs => some ([], cs)
  | '\r' :: '\n' :: cs =>
    if joining then multilineBasic true cs else cons '\r' (cons '\n' (multilineBasic false cs))
  | '\n' :: cs => if joining then multilineBasic true cs else cons '\n' (multilineBasic false cs)
  | '\\' :: 'x' :: a :: b :: cs => cons? (code? [a, b]) (multilineBasic false cs)
  | '\\' :: 'u' :: a :: b :: c :: d :: cs => cons? (code? [a, b, c, d]) (multilineBasic false cs)
  | '\\' :: 'U' :: a :: b :: c :: d :: e :: f :: g :: h :: cs =>
    cons? (code? [a, b, c, d, e, f, g, h]) (multilineBasic false cs)
  | '\\' :: c :: cs =>
    if joinsLines (c :: cs) then multilineBasic true (c :: cs)
    else cons? (letter? c) (multilineBasic false cs)
  | c :: cs =>
    if joining && (c = ' ' || c = '\t') then multilineBasic true cs
    else if isAllowed c && c ≠ '\\' then cons c (multilineBasic false cs)
    else none
  | [] => none

def multilineLiteral : List Char → Read
  | '\'' :: '\'' :: '\'' :: '\'' :: '\'' :: cs => some (['\'', '\''], cs)
  | '\'' :: '\'' :: '\'' :: '\'' :: cs => some (['\''], cs)
  | '\'' :: '\'' :: '\'' :: cs => some ([], cs)
  | '\r' :: '\n' :: cs => cons '\r' (cons '\n' (multilineLiteral cs))
  | '\n' :: cs => cons '\n' (multilineLiteral cs)
  | c :: cs => if isAllowed c then cons c (multilineLiteral cs) else none
  | [] => none

def skipLineBreak : List Char → List Char
  | '\n' :: cs => cs
  | '\r' :: '\n' :: cs => cs
  | cs => cs

def string : List Char → Read
  | '"' :: '"' :: '"' :: cs => multilineBasic false (skipLineBreak cs)
  | '\'' :: '\'' :: '\'' :: cs => multilineLiteral (skipLineBreak cs)
  | '"' :: cs => basic cs
  | '\'' :: cs => literal cs
  | _ => none

end LosslessYaml.Toml.Quoted
