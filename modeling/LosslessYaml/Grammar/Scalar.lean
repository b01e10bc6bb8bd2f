import LosslessYaml.Grammar.Flow

namespace LosslessYaml.Grammar

open Rule

def continuesName (ts : List Placed) : Bool :=
  match next ts with
  | .text | .dash | .gt | .question => true
  | .colon => !atColon ts
  | _ => false

def name : Rule := token.andThen (upTo fun ts => !continuesName ts)

def property : Rule := fun ts =>
  name.within (if initial? ts = some '&' then .anchor else .tag) ts

/-- A blank that separates a property from something on its line other than a colon. -/
def atInnerBlank (ts : List Placed) : Bool :=
  next ts = .whitespace && !atLineEnd ts && !atColon ts.tail

def properties : Rule := loop atProperty (property.andThen (when atInnerBlank token))

def line : Rule := upTo atLineEnd

def restOfLine : Rule :=
  when (fun ts => !atLineEnd ts) (blank.andThen (line.within .error))

def isLineGap : Kind → Bool
  | .whitespace | .newline => true
  | _ => false

/-- Whether a plain scalar goes on below: the next line that holds anything reaches column `min`
and is neither a comment, a document marker nor a mapping entry. -/
def plainContinues (min : Nat) (ts : List Placed) : Bool :=
  let us := ts.dropWhile (isLineGap ·.kind)
  next (pastBlank ts) = .newline && next us ≠ .eof && next us ≠ .comment &&
    min ≤ column us && !atMarker us && !atEntry us

def plainRest (min : Nat) : Bool → Rule
  | _, [] => ⟨[], []⟩
  | gap, t :: ts =>
    let take (gap : Bool) : Parsed :=
      let p := plainRest min gap ts
      ⟨.leaf t.token :: p.trees, p.rest⟩
    if gap && isLineGap t.kind then take true
    else if !atLineEnd (t :: ts) then take false
    else if plainContinues min (t :: ts) then take true
    else ⟨[], t :: ts⟩

def plainScalar (min : Nat) : Rule := (token.andThen (plainRest min false)).within .literal

def lineOf (ts : List Placed) : List Placed := ts.takeWhile (·.kind ≠ .newline)

def afterLine (ts : List Placed) : List Placed := ts.dropWhile (·.kind ≠ .newline)

theorem length_tail_afterLine (t : Placed) (ts us : List Placed) (h : afterLine ts = t :: us) :
    us.length < ts.length := by
  have h₁ := (List.dropWhile_sublist (fun t : Placed => decide (t.kind ≠ .newline)) (l := ts)).length_le
  simp only [afterLine] at h
  rw [h] at h₁
  simp only [List.length_cons] at h₁
  omega

/-- The number of tokens that belong to a block scalar's content, seen from the start of a line.
The first line that is not blank sets the indentation, which must reach `min`; the content ends
with the last line that keeps to it. `none` if there is no such line. -/
def contentLength? (min : Nat) (indent : Option Nat) (ts : List Placed) : Option Nat :=
  let line := lineOf ts
  match pastBlank line with
  | [] =>
    match _h : afterLine ts with
    | [] => none
    | _ :: us => (contentLength? min indent us).map (line.length + 1 + ·)
  | first :: _ =>
    let col := first.column
    let indent := indent.getD col
    if col < indent || col < min || atMarker (pastBlank ts) then none
    else
      match _h : afterLine ts with
      | [] => some line.length
      | _ :: us =>
        match contentLength? min (some indent) us with
        | some n => some (line.length + 1 + n)
        | none => some line.length
termination_by ts.length
decreasing_by all_goals exact length_tail_afterLine _ _ _ (by assumption)

/-- A block scalar's content, from the line break after its header. It is an empty node if there is
no content, and then the line break stays outside. -/
def blockLiteralContent (min : Nat) : Rule := fun ts =>
  match contentLength? min none ts.tail with
  | some n => (token.andThen ((tokens n).within .blockLiteralContent)) ts
  | none => skip.within .blockLiteralContent ts

def blockLiteral (min : Nat) : Rule :=
  (((upTo fun ts => next ts = .newline).within .blockLiteralHeader).andThen
    (blockLiteralContent min)).within .blockLiteral

/-- A node that may follow a key on its line. A bracket or comma that fits nowhere is an error. -/
def inlineValue (min : Nat) : Rule := fun ts =>
  match next ts with
  | .pipe | .gt => blockLiteral min ts
  | .lbracket | .lbrace => flowNode ts
  | .quoted => quotedLiteral ts
  | .rbracket | .rbrace | .comma => token.within .error ts
  | _ => if atAlias ts then name.within .aliasNode ts else plainScalar min ts

end LosslessYaml.Grammar
