import LosslessYaml.Grammar.Rule

/-!
What a rule can see ahead. A place in the input is the list of tokens that follow it, so every
test here is a function of that list; the end of input has kind `eof`.
-/

namespace LosslessYaml.Grammar

def next : List Placed → Kind
  | [] => .eof
  | t :: _ => t.kind

@[simp] theorem next_nil : next [] = .eof := rfl

@[simp] theorem next_cons (t : Placed) (ts : List Placed) : next (t :: ts) = t.kind := rfl

def column : List Placed → Nat
  | [] => 0
  | t :: _ => t.column

@[simp] theorem column_cons (t : Placed) (ts : List Placed) : column (t :: ts) = t.column := rfl

def initial? : List Placed → Option Char
  | [] => none
  | t :: _ => t.text.head?

def startsLine : List Placed → Bool
  | [] => false
  | t :: _ => t.startsLine

def pastTrivia (ts : List Placed) : List Placed := ts.dropWhile (·.kind.isTrivia)

def pastBlank : List Placed → List Placed
  | [] => []
  | t :: ts => if t.kind = .whitespace then ts else t :: ts

def atLineEnd (ts : List Placed) : Bool :=
  match next (pastBlank ts) with
  | .newline | .eof | .comment => true
  | _ => false

/-- An indicator counts as one only in front of a blank, a line break or the end of input. -/
def atGap (ts : List Placed) : Bool :=
  match next ts with
  | .whitespace | .newline | .eof => true
  | _ => false

def atIndicator (k : Kind) (ts : List Placed) : Bool := next ts = k && atGap ts.tail

def atDash (ts : List Placed) : Bool := atIndicator .dash ts

def atQuestion (ts : List Placed) : Bool := atIndicator .question ts

def atColon (ts : List Placed) : Bool := atIndicator .colon ts

def atMarker (ts : List Placed) : Bool :=
  (atIndicator .directiveEnd ts || atIndicator .documentEnd ts) && column ts = 0

def atBlockLiteral (ts : List Placed) : Bool := next ts = .pipe || next ts = .gt

def atProperty (ts : List Placed) : Bool :=
  next ts = .text && (initial? ts = some '&' || initial? ts = some '!')

def atAlias (ts : List Placed) : Bool := next ts = .text && initial? ts = some '*'

/-- Whether a separating colon outside of brackets stands on the rest of the line, `depth` brackets
being open. A closing bracket too many is ignored. -/
def colonAhead : Nat → List Placed → Bool
  | _, [] => false
  | depth, t :: ts =>
    match t.kind with
    | .newline | .eof | .comment => false
    | .lbracket | .lbrace => colonAhead (depth + 1) ts
    | .rbracket | .rbrace => colonAhead (depth - 1) ts
    | .colon => (depth = 0 && atGap ts) || colonAhead depth ts
    | _ => colonAhead depth ts

def atEntry (ts : List Placed) : Bool :=
  atQuestion ts || (!(atMarker ts || atDash ts || atBlockLiteral ts) && colonAhead 0 ts)

def contentAhead (ts : List Placed) : Bool :=
  !(pastTrivia ts).isEmpty && !atMarker (pastTrivia ts)

def trivia : Rule := Rule.upTo fun ts => !(next ts).isTrivia

def blank : Rule := Rule.when (fun ts => next ts = .whitespace) Rule.token

end LosslessYaml.Grammar
