import LosslessYaml.Tree

/-!
Events: a tree written down as a flat list. A node is opened, filled and finished. A node that is
found to need a wrapper after it was finished points forward to the wrapper's own start.
-/

namespace LosslessYaml

inductive Event : Type
  /-- Opens a node. `wrapper` is the index of a later start that is to be opened around it. -/
  | start (kind : Kind) (wrapper : Option Nat)
  | token (kind : Kind)
  | finish
  | placeholder
  deriving DecidableEq

/-- A tree under construction: the open nodes, innermost first, each with what stands before it in
its parent, and what the innermost one holds so far. -/
structure Scaffold : Type where
  outer : List (Kind × List Tree) := []
  here : List Tree := []

namespace Scaffold

def start (k : Kind) (s : Scaffold) : Scaffold := ⟨(k, s.here) :: s.outer, []⟩

def push (t : Tree) (s : Scaffold) : Scaffold := { s with here := s.here ++ [t] }

def finish? (s : Scaffold) : Option Scaffold :=
  match s.outer with
  | [] => none
  | (k, before) :: outer => some ⟨outer, before ++ [.node k s.here]⟩

/-- All finished trees, from left to right. Nodes still open are looked through. -/
def trees (s : Scaffold) : List Tree := (s.outer.reverse.flatMap Prod.snd) ++ s.here

end Scaffold

end LosslessYaml
