import LosslessYaml.Token

namespace LosslessYaml

inductive Tree : Type
  | leaf (token : Token)
  | node (kind : Kind) (children : List Tree)

namespace Tree

def kind : Tree → Kind
  | .leaf t => t.kind
  | .node k _ => k

def children : Tree → List Tree
  | .leaf _ => []
  | .node _ cs => cs

def isNode : Tree → Bool
  | .leaf _ => false
  | .node _ _ => true

mutual

def leaves : Tree → List Token
  | .leaf t => [t]
  | .node _ cs => leavesOf cs

def leavesOf : List Tree → List Token
  | [] => []
  | t :: ts => t.leaves ++ leavesOf ts

end

@[simp] theorem leavesOf_append (ts us : List Tree) : leavesOf (ts ++ us) = leavesOf ts ++ leavesOf us := by
  induction ts with
  | nil => simp [leavesOf]
  | cons t ts ih => simp [leavesOf, ih]

@[simp] theorem leavesOf_map_leaf (ts : List Token) : leavesOf (ts.map Tree.leaf) = ts := by
  induction ts with
  | nil => simp [leavesOf]
  | cons t ts ih => simp [leavesOf, leaves, ih]

def text (t : Tree) : List Char := Token.textOf t.leaves

mutual

def byteLength : Tree → Nat
  | .leaf t => Text.byteLength t.text
  | .node _ cs => byteLengthOf cs

def byteLengthOf : List Tree → Nat
  | [] => 0
  | t :: ts => t.byteLength + byteLengthOf ts

end

mutual

theorem byteLength_eq : ∀ t : Tree, t.byteLength = Text.byteLength t.text
  | .leaf t => by simp [byteLength, text, leaves]
  | .node _ cs => by simp [byteLength, text, leaves, byteLengthOf_eq cs]

theorem byteLengthOf_eq : ∀ ts : List Tree, byteLengthOf ts = Text.byteLength (Token.textOf (leavesOf ts))
  | [] => rfl
  | t :: ts => by
    have h := byteLength_eq t
    simp only [text] at h
    simp [byteLengthOf, leavesOf, h, byteLengthOf_eq ts]

end

def isEmpty (t : Tree) : Bool := t.byteLength = 0

end Tree

end LosslessYaml
