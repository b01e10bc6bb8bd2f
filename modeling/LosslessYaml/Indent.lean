import LosslessYaml.Document
import LosslessYaml.Focus

/-!
Where a new line should start. The innermost node that has an opinion decides: an open flow
collection, else the block structure around the cursor. No opinion is a normal answer.
-/

namespace LosslessYaml

structure Cursor : Type where
  root : Tree
  doc : Document
  pos : Nat
  unit : Nat

namespace Cursor

def ofOffset (root : Tree) (doc : Document) (pos unit : Nat) : Cursor := ⟨root, doc, min pos doc.size, unit⟩

def focus (c : Cursor) : Focus := c.root.focus c.pos .before

def textAfter (c : Cursor) : Except Fault (List Char) := c.doc.textAfter c.pos

/-- The line that a node in effect starts on. Where the line starts inside of some other node, that
node's first line is looked at instead, until the start of the line belongs to the node or to one
around it. Each line looked at is above the one before. -/
def baseLine (c : Cursor) (node : Located) (line : Line) : Line :=
  let across := (c.root.focus line.start .around).climb
  if across.parents.isEmpty || across.node.encloses node then line
  else
    let above := c.doc.lineHolding across.node.start
    if above.start < line.start then baseLine c node above else line
termination_by line.start

def baseIndent (c : Cursor) (node : Located) : Except Fault Nat :=
  c.doc.lineIndent (c.baseLine node (c.doc.lineHolding node.start)).start

def delimitedIndent (c : Cursor) (closing : Char) (node : Located) : Except Fault Nat := do
  let base ← c.baseIndent node
  if (Text.trimStart (← c.textAfter)).head? = some closing then return base
  else Column.add base c.unit

/-- What one node says about a new line: a column, nothing for anybody, or nothing by itself. -/
inductive Opinion : Type
  | column (n : Nat)
  | silence
  | pass
  deriving DecidableEq

/-- A block scalar keeps the indentation of its content or opens a level; a collection keeps its
column, and so does a plain scalar that starts its own line. Inside of other scalars nobody has
an opinion. -/
def opinion (c : Cursor) (n : Located) : Except Fault Opinion :=
  match n.kind with
  | .blockLiteralContent =>
    if n.tree.isEmpty then return .pass else return .column (← c.baseIndent n)
  | .blockLiteral => return .column (← Column.add (← c.baseIndent n) c.unit)
  | .blockSequence | .blockMapping => return .column (← c.doc.column n.start)
  | .quotedLiteral => return .silence
  | .literal => do
    let col ← c.doc.column n.start
    if col = (← c.doc.lineIndent n.start) then return .column col
    else if c.pos < n.stop then return .silence
    else return .pass
  | _ => return .pass

def firstOpinion (c : Cursor) : List Located → Except Fault (Option Nat)
  | [] => return none
  | n :: ns =>
    if n.stop < c.pos then return none
    else do
      match ← c.opinion n with
      | .column k => return some k
      | .silence => return none
      | .pass => firstOpinion c ns

def streamIndent (c : Cursor) : Except Fault (Option Nat) := c.firstOpinion c.focus.chain

/-- Whether a flow collection still holds the cursor, because it ends later or was never closed. -/
def insideBrackets (c : Cursor) (closer : Kind) (n : Located) : Bool :=
  c.pos < n.stop || n.tree.children.getLast?.all (·.kind ≠ closer)

def indentAmong (c : Cursor) : List Located → Except Fault (Option Nat)
  | [] => return none
  | n :: ns =>
    match n.kind with
    | .flowMapping =>
      if c.insideBrackets .rbrace n then return some (← c.delimitedIndent '}' n) else indentAmong c ns
    | .flowSequence =>
      if c.insideBrackets .rbracket n then return some (← c.delimitedIndent ']' n) else indentAmong c ns
    | .stream => c.streamIndent
    | _ => indentAmong c ns

def indent (c : Cursor) : Except Fault (Option Nat) := c.indentAmong c.focus.chain

end Cursor

end LosslessYaml
