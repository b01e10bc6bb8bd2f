import LosslessYaml.Proofs.Tree.Schema

namespace LosslessYaml.Tree

mutual

/-- A tree without the trivia among the children of nodes of some kinds. Below a node of another kind all stays. -/
def prune (p : Kind → Bool) : Tree → Tree
  | .leaf t => .leaf t
  | .node k cs => .node k (if p k then pruneOf p cs else cs)

def pruneOf (p : Kind → Bool) : List Tree → List Tree
  | [] => []
  | t :: ts => if t.isTrivia then pruneOf p ts else t.prune p :: pruneOf p ts

end

variable {p : Kind → Bool} {k : Kind} {ts : List Tree}

theorem prune_node (h : p k = true) (cs : List Tree) : (Tree.node k cs).prune p = .node k (pruneOf p cs) := by
  rw [prune, if_pos h]

theorem pruneOf_node (k : Kind) (cs ts : List Tree) :
    pruneOf p (.node k cs :: ts) = (Tree.node k cs).prune p :: pruneOf p ts := rfl

theorem pruneOf_append (p : Kind → Bool) (ts us : List Tree) : pruneOf p (ts ++ us) = pruneOf p ts ++ pruneOf p us := by
  induction ts with
  | nil => rfl
  | cons t ts ih =>
    rw [List.cons_append, pruneOf, pruneOf, ih]
    split <;> rfl

theorem pruneOf_trivia (h : ∀ t ∈ ts, t.isTrivia = true) : pruneOf p ts = [] := by
  induction ts with
  | nil => rfl
  | cons t ts ih =>
    rw [pruneOf, if_pos (h t List.mem_cons_self)]
    exact ih fun u hu => h u (List.mem_cons_of_mem _ hu)

end LosslessYaml.Tree
