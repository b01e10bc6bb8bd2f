import LosslessYaml.Proofs.Assembly.Checked
import Mathlib.Logic.Function.Basic

/-! Runs of calls on an assembly. What a run should build is told without events: every mark has an opening parenthesis,
where its node starts, and a closing one, where it is completed, and the tree is read off the parentheses. -/

namespace LosslessYaml

inductive Call : Type
  | start (m : Nat)
  | bump
  | complete (m : Nat) (k : Kind)
  | precede (m n : Nat)
  | abandon (m : Nat)
  deriving DecidableEq

structure Session : Type where
  assembly : Assembly
  marks : Nat → Option Mark := fun _ => none

namespace Session

def fresh (ts : List Placed) : Session := { assembly := { tokens := ts } }

def name (s : Session) (m : Nat) (i : Mark) : Session := { s with marks := Function.update s.marks m (some i) }

end Session

structure Marking : Type where
  made : List Nat := []
  pending : List Nat := []
  completed : List Nat := []

namespace Call

def step? : Call → Session → Option Session
  | .start m, s => some (Session.name ⟨s.assembly.start.2, s.marks⟩ m s.assembly.start.1)
  | .bump, s => some { s with assembly := s.assembly.bump }
  | .complete m k, s => do
    let a ← s.assembly.complete? (← s.marks m) k
    return { s with assembly := a }
  | .precede m n, s => do
    let (i, a) ← s.assembly.precede? (← s.marks m)
    return Session.name ⟨a, s.marks⟩ n i
  | .abandon m, s => do
    let a ← s.assembly.abandon? (← s.marks m)
    return { s with assembly := a }

/-- Whether a call can be written down: a mark is made under a new name, it is completed or given up once, and only a
completed one is put into another. -/
def isAllowed (s : Marking) : Call → Bool
  | .start m => m ∉ s.made
  | .bump => true
  | .complete m _ => m ∈ s.pending
  | .precede m n => m ∈ s.completed && n ∉ s.made
  | .abandon m => m ∈ s.pending

def mark (s : Marking) : Call → Marking
  | .start m => { s with made := m :: s.made, pending := m :: s.pending }
  | .bump => s
  | .complete m _ => { s with pending := s.pending.filter (· ≠ m), completed := m :: s.completed }
  | .precede _ n => { s with made := n :: s.made, pending := n :: s.pending }
  | .abandon m => { s with pending := s.pending.filter (· ≠ m) }

def makes? : Call → Option Nat
  | .start m => some m
  | .precede _ n => some n
  | _ => none

def ends? : Call → Option Nat
  | .complete m _ => some m
  | .abandon m => some m
  | _ => none

def subject? : Call → Option Nat
  | .abandon m => some m
  | c => c.makes?

def wrapper? (m : Nat) : Call → Option Nat
  | .precede l n => if l = m then some n else none
  | _ => none

end Call

namespace Run

def run? : List Call → Session → Option Session
  | [], s => some s
  | c :: cs, s => (c.step? s).bind (run? cs)

/-- Whether every call can be made where it stands, and no mark is left over in the end. -/
def isOrderly : List Call → Marking → Bool
  | [], s => s.pending.isEmpty
  | c :: cs, s => c.isAllowed s && isOrderly cs (c.mark s)

def abandoned (cs : List Call) : List Nat :=
  cs.filterMap fun
    | .abandon m => some m
    | _ => none

def keeping (keep : Nat → Bool) (cs : List Call) : List Call := cs.filter (·.subject?.all keep)

def kept (cs : List Call) : List Call := keeping (· ∉ abandoned cs) cs

def wrapper? (m : Nat) : List Call → Option Nat
  | [] => none
  | c :: cs => (wrapper? m cs).or (c.wrapper? m)

/-- The marks that in the end are around `m`, from the inside out. Of several that were put directly around a mark, the
last one is. -/
def around (m : Nat) : List Call → List Nat
  | [] => []
  | c :: cs =>
    match wrapper? m cs, c.wrapper? m with
    | none, some n => n :: around n cs
    | _, _ => around m cs

end Run

inductive Paren : Type
  | opening (m : Nat)
  | token (t : Token)
  | closing (m : Nat) (k : Kind)
  deriving DecidableEq

structure Drawing : Type where
  parens : List Paren := []
  rest : List Token

namespace Drawing

def add (d : Drawing) (bs : List Paren) : Drawing := { d with parens := d.parens ++ bs }

def openings (cs : List Call) (m : Nat) : List Paren := ((m :: Run.around m cs).reverse).map .opening

/-- What a call of the run `cs` draws. A mark around another one opens with it. -/
def draw (cs : List Call) (d : Drawing) : Call → Drawing
  | .start m => d.add (openings cs m)
  | .bump =>
    match d.rest with
    | [] => d
    | t :: ts => { d.add [.token t] with rest := ts }
  | .complete m k => d.add [.closing m k]
  | .precede m n => if Run.wrapper? m cs = some n then d else d.add (openings cs n)
  | .abandon _ => d

end Drawing

structure Sketch : Type where
  outer : List (Nat × List Tree) := []
  here : List Tree := []

namespace Sketch

def read? (s : Sketch) : Paren → Option Sketch
  | .opening m => some ⟨(m, s.here) :: s.outer, []⟩
  | .token t => some { s with here := s.here ++ [.leaf t] }
  | .closing m k =>
    match s.outer with
    | [] => none
    | (n, before) :: outer => if n = m then some ⟨outer, before ++ [.node k s.here]⟩ else none

def readAll? : List Paren → Sketch → Option Sketch
  | [], s => some s
  | b :: bs, s => (s.read? b).bind (readAll? bs)

def tree? (s : Sketch) : Option Tree :=
  match s with
  | ⟨[], [.node k cs]⟩ => some (.node k cs)
  | _ => none

end Sketch

namespace Run

def parens (ts : List Token) (cs : List Call) : List Paren := (cs.foldl (Drawing.draw cs) ⟨[], ts⟩).parens

/-- A run over some tokens whose marks are all completed or given up, those completed being properly nested in one
root. -/
structure Nested (ts : List Token) (cs : List Call) (t : Tree) : Prop where
  orderly : isOrderly cs {} = true
  tree : (Sketch.readAll? (parens ts (kept cs)) {}).bind Sketch.tree? = some t

end Run

end LosslessYaml
