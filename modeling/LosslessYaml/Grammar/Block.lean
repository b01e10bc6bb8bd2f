import LosslessYaml.Grammar.Scalar

/-!
Block collections. Their structure is decided by columns: the entries of a collection stand in one
column, and the value of an entry in column `col` stands deeper than `col`, or is a sequence in
`col` itself under a key. The rules take the rule for nested nodes as an argument, `node min` being
a node whose lines reach column `min`.
-/

namespace LosslessYaml.Grammar

open Rule

def entryFollows (col : Nat) (test : List Placed → Bool) (ts : List Placed) : Bool :=
  let us := pastTrivia ts
  column us = col && startsLine us && test us

def deeper (node : Nat → Rule) (col : Nat) : Rule :=
  when (fun ts => contentAhead ts && col < column (pastTrivia ts)) (trivia.andThen (node (col + 1)))

def itemValue (node : Nat → Rule) (col : Nat) : Rule :=
  branch atLineEnd (deeper node col) (blank.andThen ((node (col + 1)).andThen restOfLine))

def item (node : Nat → Rule) (col : Nat) : Rule := (token.andThen (itemValue node col)).within .item

def sequence (node : Nat → Rule) (col : Nat) : Rule :=
  ((item node col).andThen (loop (entryFollows col atDash) (trivia.andThen (item node col)))).within
    .blockSequence

def atFlushSequence (col : Nat) (ts : List Placed) : Bool :=
  let us := pastTrivia ts
  column us = col && atDash us

def pairValueBelow (node : Nat → Rule) (col : Nat) : Rule :=
  branch (atFlushSequence col) (trivia.andThen (sequence node col)) (deeper node col)

/-- The value of a pair in column `col`. Collections cannot start on the key's line, and properties
that end the line belong to the pair. -/
def pairValue (node : Nat → Rule) (col : Nat) : Rule :=
  branch atLineEnd (pairValueBelow node col)
    (blank.andThen (properties.andThen
      (branch atLineEnd (pairValueBelow node col) ((inlineValue (col + 1)).andThen restOfLine))))

/-- A key ends at its colon or with its line, and leaves the blank before either. -/
def atKeyEnd (ts : List Placed) : Bool := atLineEnd ts || atColon (pastBlank ts)

def keyContent : Rule := fun ts =>
  match next ts with
  | .quoted => quotedLiteral ts
  | .lbracket | .lbrace => flowNode ts
  | _ => when (fun ts => !atKeyEnd ts) ((upTo atKeyEnd).within .literal) ts

def key : Rule :=
  (properties.andThen (keyContent.andThen
    (when (fun ts => !atKeyEnd ts) ((upTo atKeyEnd).within .error)))).within .key

def explicitKey (node : Nat → Rule) (col : Nat) : Rule :=
  (token.andThen (itemValue node col)).within .key

def pairTail (node : Nat → Rule) (col : Nat) : Rule :=
  (when (fun ts => next ts = .whitespace && next ts.tail = .colon) token).andThen
    ((when (fun ts => next ts = .colon) token).andThen (pairValue node col))

def pair (node : Nat → Rule) (col : Nat) : Rule :=
  (branch atQuestion
    ((explicitKey node col).andThen
      (when (entryFollows col atColon) (trivia.andThen (pairTail node col))))
    ((when (fun ts => next ts ≠ .colon) key).andThen (pairTail node col))).within .pair

def mapping (node : Nat → Rule) (col : Nat) : Rule :=
  ((pair node col).andThen (loop (entryFollows col atEntry) (trivia.andThen (pair node col)))).within
    .blockMapping

def bareNode (node : Nat → Rule) (min : Nat) : Rule := fun ts =>
  if atDash ts then sequence node (column ts) ts
  else if atBlockLiteral ts then blockLiteral min ts
  else if atEntry ts then mapping node (column ts) ts
  else inlineValue min ts

def describedBelow (node : Nat → Rule) (min : Nat) : Rule :=
  when (fun ts => contentAhead ts && min ≤ column (pastTrivia ts)) (trivia.andThen (node min))

/-- Any block node. The properties in front of a mapping's first key belong to that key. -/
def blockNodeOf (node : Nat → Rule) (min : Nat) : Rule :=
  branch (fun ts => atProperty ts && !atEntry ts)
    (properties.andThen (branch atLineEnd (describedBelow node min) (bareNode node min)))
    (bareNode node min)

/-- Any block node whose lines reach column `min`. Nested nodes are read from what is left after
some token of this one, so the input gets shorter with every level. -/
def blockNode (min : Nat) : Rule := fun ts =>
  blockNodeOf (fun col us => if us.length < ts.length then blockNode col us else skip us) min ts
termination_by ts => ts.length

end LosslessYaml.Grammar
