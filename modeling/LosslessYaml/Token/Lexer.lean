import LosslessYaml.Token
import LosslessYaml.Text.Blank

/-!
Splitting a text into tokens. Tokens are context free: an indicator character is always a token of
its own, and whether it means structure is left to the grammar. Nothing is skipped, so the tokens
read from left to right give the text back (`textOf_scan`).
-/

namespace LosslessYaml.Token

structure Lexeme : Type where
  kind : Kind
  tail : List Char
  rest : List Char

namespace Lexeme

def push (cs : List Char) (l : Lexeme) : Lexeme := { l with tail := cs ++ l.tail }

def whole (l : Lexeme) : List Char := l.tail ++ l.rest

@[simp] theorem whole_mk (k : Kind) (s t : List Char) : (Lexeme.mk k s t).whole = s ++ t := rfl

@[simp] theorem whole_push (cs : List Char) (l : Lexeme) : (l.push cs).whole = cs ++ l.whole := by
  simp [push, whole]

end Lexeme

def run (k : Kind) (p : Char → Bool) (cs : List Char) : Lexeme :=
  ⟨k, cs.takeWhile p, cs.dropWhile p⟩

@[simp] theorem whole_run (k : Kind) (p : Char → Bool) (cs : List Char) : (run k p cs).whole = cs := by
  simp [run]

/-- After a double quote. A backslash takes the next character with it. Without a closing quote
all that follows is text, up to a backslash that has nothing to take on its line. -/
def doubleQuoted : List Char → Lexeme
  | [] => ⟨.text, [], []⟩
  | '"' :: cs => ⟨.quoted, ['"'], cs⟩
  | '\\' :: '\n' :: cs => ⟨.text, [], '\\' :: '\n' :: cs⟩
  | '\\' :: c :: cs => (doubleQuoted cs).push ['\\', c]
  | ['\\'] => ⟨.text, [], ['\\']⟩
  | c :: cs => (doubleQuoted cs).push [c]

@[simp] theorem whole_doubleQuoted (cs : List Char) : (doubleQuoted cs).whole = cs := by
  fun_induction doubleQuoted cs <;> simp_all

def singleQuoted : List Char → Lexeme
  | [] => ⟨.text, [], []⟩
  | '\'' :: '\'' :: cs => (singleQuoted cs).push ['\'', '\'']
  | '\'' :: cs => ⟨.quoted, ['\''], cs⟩
  | c :: cs => (singleQuoted cs).push [c]

@[simp] theorem whole_singleQuoted (cs : List Char) : (singleQuoted cs).whole = cs := by
  fun_induction singleQuoted cs <;> simp_all

def indicator? : Char → Option Kind
  | ':' => some .colon
  | ',' => some .comma
  | '[' => some .lbracket
  | ']' => some .rbracket
  | '{' => some .lbrace
  | '}' => some .rbrace
  | '|' => some .pipe
  | '>' => some .gt
  | _ => none

def isPlain (c : Char) : Bool :=
  !(Text.isSpace c) && (indicator? c).isNone && c ≠ '#' && c ≠ '"' && c ≠ '\'' && c ≠ '-'

/-- The kind of a maximal plain run. Dots end a document only where a character outside of ASCII
does not follow directly. -/
def plainKind (word rest : List Char) : Kind :=
  if word = ['?'] then .question
  else if word = ['.', '.', '.'] && rest.head?.all (fun c => c.toNat < 128) then .documentEnd
  else .text

def plain (c : Char) (cs : List Char) : Lexeme :=
  let l := run .text isPlain cs
  { l with kind := plainKind (c :: l.tail) l.rest }

@[simp] theorem whole_plain (c : Char) (cs : List Char) : (plain c cs).whole = cs := by
  simp [plain, run]

/-- After a hash. A hash that touches what comes before it starts no comment. -/
def hash (glued : Bool) (cs : List Char) : Lexeme :=
  if glued then ⟨.text, [], cs⟩ else run .comment (fun c => c ≠ '\r' && c ≠ '\n') cs

@[simp] theorem whole_hash (glued : Bool) (cs : List Char) : (hash glued cs).whole = cs := by
  cases glued <;> simp [hash]

def carriageReturn : List Char → Lexeme
  | '\n' :: cs => ⟨.newline, ['\n'], cs⟩
  | cs => ⟨.text, [], cs⟩

@[simp] theorem whole_carriageReturn (cs : List Char) : (carriageReturn cs).whole = cs := by
  fun_cases carriageReturn cs <;> simp

def dashes : List Char → Lexeme
  | '-' :: '-' :: cs => ⟨.directiveEnd, ['-', '-'], cs⟩
  | cs => ⟨.dash, [], cs⟩

@[simp] theorem whole_dashes (cs : List Char) : (dashes cs).whole = cs := by
  fun_cases dashes cs <;> simp

/-- The token that starts with `c`. `glued` says whether `c` touches a token that is neither blank
nor a line break. -/
def lexeme (glued : Bool) (c : Char) (cs : List Char) : Lexeme :=
  match indicator? c with
  | some k => ⟨k, [], cs⟩
  | none =>
    match c with
    | ' ' | '\t' => run .whitespace Text.isBlank cs
    | '\n' => ⟨.newline, [], cs⟩
    | '\r' => carriageReturn cs
    | '#' => hash glued cs
    | '-' => dashes cs
    | '"' => doubleQuoted cs
    | '\'' => singleQuoted cs
    | c => if Text.isSpace c then ⟨.text, [], cs⟩ else plain c cs

@[simp] theorem whole_lexeme (glued : Bool) (c : Char) (cs : List Char) :
    (lexeme glued c cs).whole = cs := by
  unfold lexeme
  split
  · simp
  · split <;> first | simp | (split <;> simp)

theorem length_rest_lexeme (glued : Bool) (c : Char) (cs : List Char) :
    (lexeme glued c cs).rest.length ≤ cs.length := by
  have h := congrArg List.length (whole_lexeme glued c cs)
  simp only [Lexeme.whole, List.length_append] at h
  omega

def glues : Kind → Bool
  | .whitespace | .newline => false
  | _ => true

def scanFrom (glued : Bool) : List Char → List Token
  | [] => []
  | c :: cs =>
    let l := lexeme glued c cs
    ⟨l.kind, c :: l.tail⟩ :: scanFrom (glues l.kind) l.rest
termination_by s => s.length
decreasing_by
  have := length_rest_lexeme glued c cs
  simp only [List.length_cons]
  omega

def scan (s : List Char) : List Token := scanFrom false s

theorem textOf_scanFrom (glued : Bool) (s : List Char) : textOf (scanFrom glued s) = s := by
  fun_induction scanFrom glued s with
  | case1 => rfl
  | case2 glued c cs l ih =>
    have h : l.tail ++ l.rest = cs := whole_lexeme glued c cs
    simp [ih, h]

@[simp] theorem textOf_scan (s : List Char) : textOf (scan s) = s := textOf_scanFrom false s

end LosslessYaml.Token
