import LosslessYaml.Document
import LosslessYaml.Focus

/-!
Ranges of a text that can be folded away. Flow collections fold between their brackets; items,
pairs and block scalars fold from the end of their first line to their own end.
-/

namespace LosslessYaml

structure Fold : Type where
  start : Nat
  stop : Nat
  deriving DecidableEq

namespace Fold

def isEmpty (f : Fold) : Bool := f.start = f.stop

def shift (n : Nat) (f : Fold) : Fold := ⟨f.start + n, f.stop + n⟩

def closingStart (n : Located) : Nat :=
  match n.tree.children.getLast? with
  | some (.leaf t) => if t.kind.isFlowCloser then n.stop - Text.byteLength t.text else n.stop
  | _ => n.stop

def inside? (n : Located) : Option Fold :=
  match n.tree.children with
  | [] => none
  | first :: _ =>
    let f : Fold := ⟨n.start + first.byteLength, closingStart n⟩
    if f.start < f.stop then some f else none

def below? (d : Document) (n : Located) : Option Fold :=
  let f : Fold := ⟨(d.lineHolding n.start).stop, n.stop⟩
  if f.start ≤ f.stop then some f else none

def ofNode? (d : Document) (n : Located) : Option Fold :=
  match n.kind with
  | .flowMapping | .flowSequence => inside? n
  | .item | .pair | .blockLiteral => below? d n
  | _ => none

/-- Drops what equals its neighbour. -/
def collapse : List Fold → List Fold
  | f :: g :: fs => if f = g then collapse (g :: fs) else f :: collapse (g :: fs)
  | fs => fs

/-- All folds of a tree that hide anything, in the order of their nodes. -/
def all (root : Tree) (d : Document) : List Fold :=
  collapse ((root.nodes.filterMap (ofNode? d)).filter (!·.isEmpty))

def opensOn (l : Line) (f : Fold) : Bool := l.start ≤ f.start && f.start ≤ l.stop && l.stop < f.stop

/-- The outermost fold that opens on a line, among nodes given from the inside out. Once one is
found, nodes that start above the line are not asked. -/
def outermost (d : Document) (l : Line) (found : Option Fold) : List Located → Option Fold
  | [] => found
  | n :: ns =>
    if n.stop ≤ l.stop || l.stop < n.start then outermost d l found ns
    else if found.isSome && n.start < l.start then found
    else
      match ofNode? d n with
      | some f => outermost d l (if opensOn l f then some f else found) ns
      | none => outermost d l found ns

def atLine? (root : Tree) (d : Document) (k : Nat) : Option Fold :=
  match d.line? k with
  | none => none
  | some l => outermost d l none (root.focus l.stop .after).chain

end Fold

end LosslessYaml
