import LosslessYaml.Tree.Located

namespace LosslessYaml

inductive Side : Type
  | before
  | around
  | after
  deriving DecidableEq

/-- Whether the stretch from `a` to `b` is at `pos`. An empty one never is. -/
def Side.holds (pos a b : Nat) : Side → Bool
  | .before => a < pos && pos ≤ b
  | .around => a < pos && pos < b
  | .after => a ≤ pos && pos < b

structure Focus : Type where
  node : Located
  parents : List Located

namespace Focus

def chain (f : Focus) : List Located := f.node :: f.parents

def climbFrom (n : Located) : List Located → Focus
  | [] => ⟨n, []⟩
  | p :: ps => if p.start = n.start then climbFrom p ps else ⟨n, p :: ps⟩

def climb (f : Focus) : Focus := climbFrom f.node f.parents

end Focus

namespace Tree

mutual

/-- The innermost node at a place below a tree, whose parents are given. The first child that is at
the place is entered. -/
def focusFrom (pos : Nat) (side : Side) (address : List Nat) (n : Nat) (parents : List Located) :
    Tree → Focus
  | .leaf t => ⟨⟨address, n, .leaf t⟩, parents⟩
  | .node k cs =>
    let here : Located := ⟨address, n, .node k cs⟩
    (focusAmong pos side address 0 n (here :: parents) cs).getD ⟨here, parents⟩

def focusAmong (pos : Nat) (side : Side) (address : List Nat) (i n : Nat) (parents : List Located) :
    List Tree → Option Focus
  | [] => none
  | t :: ts =>
    let stop := n + t.byteLength
    if t.isNode && side.holds pos n stop then some (t.focusFrom pos side (address ++ [i]) n parents)
    else focusAmong pos side address (i + 1) stop parents ts

end

def focus (root : Tree) (pos : Nat) (side : Side) : Focus := root.focusFrom pos side [] 0 []

end Tree

end LosslessYaml
