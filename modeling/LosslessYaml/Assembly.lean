import LosslessYaml.Event.Replay
import LosslessYaml.Grammar.Stream

namespace LosslessYaml

structure Assembly : Type where
  tokens : List Placed
  position : Nat := 0
  events : List Event := []

structure Mark : Type where
  index : Nat
  deriving DecidableEq

namespace Assembly

def ofText (s : List Char) : Assembly := { tokens := Placed.place (Token.scan s) }

def rest (a : Assembly) : List Placed := a.tokens.drop a.position

def atEnd (a : Assembly) : Bool := a.rest.isEmpty

def nth (a : Assembly) (n : Nat) : Kind := Grammar.next (a.rest.drop n)

def nthText (a : Assembly) (n : Nat) : List Char := (a.rest[n]?.map Placed.text).getD []

def nthColumn (a : Assembly) (n : Nat) : Nat := Grammar.column (a.rest.drop n)

/-- Whether only blanks come before the `n`th token ahead on its line. The end of input has an
answer too, and places beyond it have none. -/
def nthStartsLine? (a : Assembly) (n : Nat) : Option Bool :=
  match a.tokens[a.position + n]? with
  | some t => some t.startsLine
  | none =>
    if a.position + n = a.tokens.length then
      some ((a.tokens.getLast?.map fun t => Placed.freshAfter t.startsLine t.kind).getD true)
    else none

def atLineEnd (a : Assembly) : Bool := Grammar.atLineEnd a.rest

def triviaAhead (a : Assembly) : Nat := (a.rest.takeWhile (·.kind.isTrivia)).length

def push (a : Assembly) (e : Event) : Assembly := { a with events := a.events ++ [e] }

def bump (a : Assembly) : Assembly :=
  match a.rest with
  | [] => a
  | t :: _ => { a.push (.token t.kind) with position := a.position + 1 }

def bumps : Nat → Assembly → Assembly
  | 0, a => a
  | n + 1, a => bumps n a.bump

def bumpTrivia (a : Assembly) : Assembly := a.bumps a.triviaAhead

def eat (a : Assembly) (k : Kind) : Bool × Assembly :=
  if a.nth 0 = k then (true, a.bump) else (false, a)

def start (a : Assembly) : Mark × Assembly := (⟨a.events.length⟩, a.push .placeholder)

def complete (a : Assembly) (m : Mark) (k : Kind) : Assembly :=
  { a with events := a.events.set m.index (.start k none) ++ [.finish] }

/-- Gives up a node. Its reservation is taken back only while it is the last event. -/
def abandon (a : Assembly) (m : Mark) : Assembly :=
  if m.index + 1 = a.events.length then { a with events := a.events.dropLast } else a

def pointTo (i : Nat) : Event → Event
  | .start k _ => .start k (some i)
  | e => e

def precede (a : Assembly) (m : Mark) : Mark × Assembly :=
  let i := a.events.length
  (⟨i⟩, { a with events := a.events.modify m.index (pointTo i) ++ [.placeholder] })

/-- Whether the children of a node of kind `k` may be pairs and keys of a flow collection. -/
def flowBelow (flow : Bool) (k : Kind) : Bool := k.isFlowCollection || (flow && k = .pair)

/-- A flow collection's pairs and keys are recognised only after their first part was read, so they
are put around it. -/
def isLate (flow : Bool) (k : Kind) (first : Tree) : Bool :=
  flow && (k = .pair || k = .key) && first.isNode

mutual

/-- Assembles a tree, whose leaves are the next tokens. `flow` says whether it stands directly in a
flow collection or in a pair of one. -/
def emit (flow : Bool) : Tree → Assembly → Mark × Assembly
  | .leaf _, a => (⟨a.events.length⟩, a.bump)
  | .node k [], a =>
    let (m, a) := a.start
    (m, a.complete m k)
  | .node k (c :: cs), a =>
    if isLate flow k c then
      let (m, a) := emit (flowBelow flow k) c a
      let (n, a) := a.precede m
      (n, (emitAll (flowBelow flow k) cs a).complete n k)
    else
      let (m, a) := a.start
      (m, (emitAll (flowBelow flow k) (c :: cs) a).complete m k)

def emitAll (flow : Bool) : List Tree → Assembly → Assembly
  | [], a => a
  | t :: ts, a => emitAll flow ts (emit flow t a).2

end

def readStream (a : Assembly) : Assembly := (emit false (Tree.ofPlaced a.rest) a).2

def finish (a : Assembly) : Except Event.Malformed Tree := Event.replay (a.tokens.map Placed.token) a.events

def parse (a : Assembly) : Except Event.Malformed Tree := a.readStream.finish

end Assembly

end LosslessYaml
