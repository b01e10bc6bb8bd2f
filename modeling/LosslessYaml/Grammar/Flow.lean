import LosslessYaml.Grammar.Lookahead

/-!
Flow collections: `[a, b]` and `{a: 1, b}`. Inside of brackets indentation has no meaning. A
collection runs to its own closing bracket; one that is left open ends with its last entry, and
the trivia after that entry belongs to whatever encloses the collection.
-/

namespace LosslessYaml.Grammar

open Rule

inductive Bracket : Type
  | square
  | curly
  deriving DecidableEq

namespace Bracket

def opener : Bracket → Kind
  | .square => .lbracket
  | .curly => .lbrace

def closer : Bracket → Kind
  | .square => .rbracket
  | .curly => .rbrace

def collection : Bracket → Kind
  | .square => .flowSequence
  | .curly => .flowMapping

end Bracket

/-- A colon after a flow key. Right after a key that ends by itself (`adjacent`) it needs no gap
behind it. -/
def atFlowColon (adjacent : Bool) (ts : List Placed) : Bool :=
  next ts = .colon &&
    (adjacent ||
      match next ts.tail with
      | .whitespace | .newline | .eof | .comma | .rbracket | .rbrace => true
      | _ => false)

def endsFlowPlain (ts : List Placed) : Bool :=
  match next ts with
  | .comma | .lbracket | .rbracket | .lbrace | .rbrace | .newline | .eof | .comment => true
  | .colon => atFlowColon false ts
  | _ => false

def flowPlain : Rule :=
  (token.andThen (upTo fun ts => endsFlowPlain (pastBlank ts))).within .literal

def quotedLiteral : Rule := token.within .quotedLiteral

def colonLength? (adjacent : Bool) (ts : List Placed) : Option Nat :=
  if atFlowColon adjacent ts then some 1
  else if next ts = .whitespace && atFlowColon false ts.tail then some 2
  else none

def atFlowValueEnd (ts : List Placed) : Bool :=
  atMarker ts ||
    match next ts with
    | .comma | .rbracket | .rbrace | .eof => true
    | _ => false

def flowValue (node : Rule) : Rule :=
  when (fun ts => !atFlowValueEnd (pastTrivia ts)) (trivia.andThen node)

def flowPairTail (node : Rule) (colon : Option Nat) : Rule :=
  match colon with
  | some n => (tokens n).andThen (flowValue node)
  | none => skip

def endsItself : Kind → Bool
  | .quoted | .lbracket | .lbrace => true
  | _ => false

/-- One entry of a flow collection, its nodes being read by `node`. Every entry of a mapping is a
pair; an entry of a sequence is one only if it has a colon. -/
def flowEntry (node : Rule) (b : Bracket) : Rule := fun ts =>
  if atFlowColon false ts then
    (flowPairTail node (colonLength? false ts)).within .pair ts
  else
    let key := node ts
    let colon := colonLength? (endsItself (next ts)) key.rest
    if colon.isNone && b = .square then key
    else
      let tail := flowPairTail node colon key.rest
      ⟨[.node .pair (.node .key key.trees :: tail.trees)], tail.rest⟩

def flowContinues (ts : List Placed) : Bool :=
  contentAhead ts && !(next (pastTrivia ts)).isFlowCloser

def flowBody (node : Rule) (b : Bracket) : Rule :=
  (loop flowContinues
    (trivia.andThen (branch (fun ts => next ts = .comma) token (flowEntry node b)))).andThen
  (when (fun ts => next (pastTrivia ts) = b.closer) (trivia.andThen token))

def flowCollectionOf (node : Rule) (b : Bracket) : Rule :=
  (token.andThen (flowBody node b)).within b.collection

def flowNodeOf (node : Rule) : Rule := fun ts =>
  match next ts with
  | .lbracket => flowCollectionOf node .square ts
  | .lbrace => flowCollectionOf node .curly ts
  | .quoted => quotedLiteral ts
  | _ => flowPlain ts

/-- Any flow node. Nested nodes are read from what is left after the opening bracket, so the input
gets shorter with every level. -/
def flowNode : Rule := fun ts =>
  flowNodeOf (fun us => if us.length < ts.length then flowNode us else skip us) ts
termination_by ts => ts.length

end LosslessYaml.Grammar
