import LosslessYaml.Tree

namespace LosslessYaml

structure Located : Type where
  address : List Nat
  start : Nat
  tree : Tree

namespace Located

def kind (l : Located) : Kind := l.tree.kind

def stop (l : Located) : Nat := l.start + l.tree.byteLength

def depth (l : Located) : Nat := l.address.length

/-- Whether `l` is `m` or contains it. -/
def encloses (l m : Located) : Bool := l.address.isPrefixOf m.address

def childrenFrom (address : List Nat) : Nat → Nat → List Tree → List Located
  | _, _, [] => []
  | i, n, t :: ts => ⟨address ++ [i], n, t⟩ :: childrenFrom address (i + 1) (n + t.byteLength) ts

def children (l : Located) : List Located := childrenFrom l.address 0 l.start l.tree.children

end Located

namespace Tree

def located (t : Tree) : Located := ⟨[], 0, t⟩

mutual

def preorderFrom (address : List Nat) (n : Nat) : Tree → List Located
  | .leaf t => [⟨address, n, .leaf t⟩]
  | .node k cs => ⟨address, n, .node k cs⟩ :: preorderOf address 0 n cs

def preorderOf (address : List Nat) (i n : Nat) : List Tree → List Located
  | [] => []
  | t :: ts => preorderFrom (address ++ [i]) n t ++ preorderOf address (i + 1) (n + t.byteLength) ts

end

def preorder (t : Tree) : List Located := t.preorderFrom [] 0

def nodes (t : Tree) : List Located := t.preorder.filter (·.tree.isNode)

end Tree

end LosslessYaml
