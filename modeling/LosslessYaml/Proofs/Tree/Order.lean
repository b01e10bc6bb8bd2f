import LosslessYaml.Focus

/-! The order of the nodes of a tree. Of two nodes, the one that comes first in preorder is around the other
or ends before it starts, and the nodes at a place are those that a descent to this place passes. -/

namespace LosslessYaml

namespace Located

/-- The number of bytes of the token that a node starts with, if it starts with a token of its own. -/
def lead (l : Located) : Nat :=
  match l.tree.children with
  | .leaf t :: _ => Text.byteLength t.text
  | _ => 0

def trail (l : Located) : Nat :=
  match l.tree.children.getLast? with
  | some (.leaf t) => Text.byteLength t.text
  | _ => 0

/-- `m` is a node below `l`, between the tokens that `l` starts and ends with. -/
structure Around (l m : Located) : Prop where
  encloses : l.encloses m = true
  start : l.start + l.lead ≤ m.start
  stop : m.stop + l.trail ≤ l.stop

def Precedes (l m : Located) : Prop := l.Around m ∨ l.stop ≤ m.start

theorem Precedes.start_le {l m : Located} (h : l.Precedes m) : l.start ≤ m.start := by
  rcases h with ha | hle
  · exact Nat.le_trans (Nat.le_add_right _ _) ha.start
  · exact Nat.le_trans (Nat.le_add_right _ _) hle

def isAt (pos : Nat) (side : Side) (l : Located) : Bool :=
  l.tree.isNode && side.holds pos l.start l.stop

end Located

theorem Side.holds_mono {pos a b a' b' : Nat} {side : Side} (h : side.holds pos a b = true)
    (ha : a' ≤ a) (hb : b ≤ b') : side.holds pos a' b' = true := by
  cases side <;> simp only [Side.holds, Bool.and_eq_true, decide_eq_true_eq] at h ⊢ <;> omega

theorem Side.holds_disjoint {pos a b a' b' : Nat} {side : Side} (h : side.holds pos a b = true)
    (hb : b ≤ a') : side.holds pos a' b' = false := by
  cases side <;>
    simp only [Side.holds, Bool.and_eq_true, Bool.and_eq_false_iff, decide_eq_true_eq,
      decide_eq_false_iff_not] at h ⊢ <;> omega

namespace Tree

structure Within (address : List Nat) (a b : Nat) (l : Located) : Prop where
  address : address <+: l.address
  start : a ≤ l.start
  stop : l.stop ≤ b

theorem Within.mono {address : List Nat} {a a' b b' : Nat} {l : Located} (h : Within address a b l)
    (ha : a' ≤ a) (hb : b ≤ b') : Within address a' b' l :=
  ⟨h.address, Nat.le_trans ha h.start, Nat.le_trans h.stop hb⟩

mutual

theorem within_preorderFrom (address : List Nat) (n : Nat) :
    ∀ t : Tree, ∀ l ∈ t.preorderFrom address n, Within address n (n + t.byteLength) l
  | .leaf t, l, hl => by
    rw [preorderFrom, List.mem_singleton] at hl
    subst hl
    exact ⟨List.prefix_refl _, Nat.le_refl _, Nat.le_refl _⟩
  | .node k cs, l, hl => by
    rw [preorderFrom, List.mem_cons] at hl
    rcases hl with rfl | hl
    · exact ⟨List.prefix_refl _, Nat.le_refl _, Nat.le_refl _⟩
    · exact within_preorderOf address 0 n cs l hl

theorem within_preorderOf (address : List Nat) (i n : Nat) :
    ∀ ts : List Tree, ∀ l ∈ preorderOf address i n ts, Within address n (n + byteLengthOf ts) l
  | [], l, hl => by simp [preorderOf] at hl
  | t :: ts, l, hl => by
    rw [preorderOf, List.mem_append] at hl
    rw [byteLengthOf]
    rcases hl with hl | hl
    · have h := within_preorderFrom (address ++ [i]) n t l hl
      exact ⟨(List.prefix_append _ _).trans h.address, h.start, Nat.le_trans h.stop (by omega)⟩
    · exact (within_preorderOf address (i + 1) _ ts l hl).mono (by omega) (by omega)

end

mutual

theorem leaves_preorderFrom (address : List Nat) (n : Nat) :
    ∀ t : Tree, ∀ l ∈ t.preorderFrom address n, ∃ ts us,
      t.leaves = ts ++ (l.tree.leaves ++ us) ∧ l.start = n + Text.byteLength (Token.textOf ts)
  | .leaf t, l, hl => by
    rw [preorderFrom, List.mem_singleton] at hl
    subst hl
    exact ⟨[], [], by simp, rfl⟩
  | .node k cs, l, hl => by
    rw [preorderFrom, List.mem_cons] at hl
    rcases hl with rfl | hl
    · exact ⟨[], [], by simp, rfl⟩
    · exact leavesOf_preorderOf address 0 n cs l hl

theorem leavesOf_preorderOf (address : List Nat) (i n : Nat) :
    ∀ cs : List Tree, ∀ l ∈ preorderOf address i n cs, ∃ ts us,
      leavesOf cs = ts ++ (l.tree.leaves ++ us) ∧ l.start = n + Text.byteLength (Token.textOf ts)
  | [], l, hl => by simp [preorderOf] at hl
  | t :: cs, l, hl => by
    rw [preorderOf, List.mem_append] at hl
    rw [leavesOf]
    rcases hl with hl | hl
    · obtain ⟨ts, us, ht, hn⟩ := leaves_preorderFrom _ n t l hl
      exact ⟨ts, us ++ leavesOf cs, by rw [ht]; simp only [List.append_assoc], hn⟩
    · obtain ⟨ts, us, ht, hn⟩ := leavesOf_preorderOf address (i + 1) _ cs l hl
      refine ⟨t.leaves ++ ts, us, by rw [ht, List.append_assoc], ?_⟩
      rw [hn, byteLength_eq, text, Token.textOf_append, Text.byteLength_append]
      omega

end

theorem text_of_mem_nodes {t : Tree} {l : Located} (h : l ∈ t.nodes) :
    ∃ u v, t.text = u ++ (l.tree.text ++ v) ∧ l.start = Text.byteLength u := by
  obtain ⟨ts, us, ht, hn⟩ := leaves_preorderFrom [] 0 t l (List.mem_filter.1 h).1
  refine ⟨Token.textOf ts, Token.textOf us, ?_, by rw [hn, Nat.zero_add]⟩
  rw [text, ht, Token.textOf_append, Token.textOf_append, text]

theorem byteLengthOf_append (ts us : List Tree) :
    byteLengthOf (ts ++ us) = byteLengthOf ts + byteLengthOf us := by
  simp only [byteLengthOf_eq, leavesOf_append, Token.textOf_append, Text.byteLength_append]

theorem preorderOf_append (address : List Nat) (i n : Nat) (ts us : List Tree) :
    preorderOf address i n (ts ++ us) =
      preorderOf address i n ts ++ preorderOf address (i + ts.length) (n + byteLengthOf ts) us := by
  induction ts generalizing i n with
  | nil => rfl
  | cons t ts ih =>
    rw [List.cons_append, preorderOf, preorderOf, ih, List.append_assoc, byteLengthOf, List.length_cons]
    congr 3 <;> omega

section Below

variable (address : List Nat) (n : Nat) (k : Kind) {cs : List Tree} {m : Located}

theorem lead_le_start (hm : m ∈ preorderOf address 0 n cs) (hn : m.tree.isNode = true) :
    n + Located.lead ⟨address, n, .node k cs⟩ ≤ m.start := by
  match cs with
  | [] => exact (within_preorderOf _ _ _ _ m hm).start
  | .node _ _ :: _ => exact (within_preorderOf _ _ _ _ m hm).start
  | .leaf t :: ts =>
    rw [preorderOf, preorderFrom, List.singleton_append, List.mem_cons] at hm
    rcases hm with rfl | hm
    · simp [isNode] at hn
    · exact (within_preorderOf address 1 _ ts m hm).start

theorem stop_le_trail (hm : m ∈ preorderOf address 0 n cs) (hn : m.tree.isNode = true) :
    m.stop + Located.trail ⟨address, n, .node k cs⟩ ≤ n + byteLengthOf cs := by
  rw [Located.trail, children]
  split
  · next t ht =>
    obtain ⟨ts, rfl⟩ := List.getLast?_eq_some_iff.1 ht
    rw [preorderOf_append, List.mem_append] at hm
    rw [byteLengthOf_append, byteLengthOf, byteLength, byteLengthOf]
    rcases hm with hm | hm
    · have := (within_preorderOf address 0 n ts m hm).stop
      omega
    · rw [preorderOf, preorderFrom, preorderOf, List.append_nil, List.mem_singleton] at hm
      subst hm
      simp [isNode] at hn
  · exact (within_preorderOf address 0 n cs m hm).stop

theorem precedes_below (hm : m ∈ preorderOf address 0 n cs) (hn : m.tree.isNode = true) :
    Located.Precedes ⟨address, n, .node k cs⟩ m := by
  have h := within_preorderOf address 0 n cs m hm
  exact .inl ⟨List.isPrefixOf_iff_prefix.2 h.address, lead_le_start address n k hm hn,
    stop_le_trail address n k hm hn⟩

end Below

mutual

theorem pairwise_preorderFrom (address : List Nat) (n : Nat) :
    ∀ t : Tree, ((t.preorderFrom address n).filter (·.tree.isNode)).Pairwise Located.Precedes
  | .leaf t => by simp [preorderFrom, isNode]
  | .node k cs => by
    rw [preorderFrom, List.filter_cons_of_pos rfl, List.pairwise_cons]
    refine ⟨fun m hm => ?_, pairwise_preorderOf address 0 n cs⟩
    exact precedes_below address n k (List.mem_filter.1 hm).1 (List.mem_filter.1 hm).2

theorem pairwise_preorderOf (address : List Nat) (i n : Nat) :
    ∀ ts : List Tree, ((preorderOf address i n ts).filter (·.tree.isNode)).Pairwise Located.Precedes
  | [] => by simp [preorderOf]
  | t :: ts => by
    rw [preorderOf, List.filter_append, List.pairwise_append]
    refine ⟨pairwise_preorderFrom _ n t, pairwise_preorderOf address (i + 1) _ ts, ?_⟩
    intro l hl m hm
    have h₁ := within_preorderFrom _ n t l (List.mem_filter.1 hl).1
    have h₂ := within_preorderOf address (i + 1) _ ts m (List.mem_filter.1 hm).1
    exact .inr (Nat.le_trans h₁.stop h₂.start)

end

theorem pairwise_nodes (t : Tree) : t.nodes.Pairwise Located.Precedes :=
  pairwise_preorderFrom [] 0 t

theorem nodes_apart {t : Tree} {l m : Located} (hl : l ∈ t.nodes) (hm : m ∈ t.nodes) :
    l = m ∨ l.Precedes m ∨ m.Precedes l := by
  have hp := t.pairwise_nodes
  exact List.Pairwise.forall_of_forall_of_flip (R := fun l m => l = m ∨ l.Precedes m ∨ m.Precedes l)
    (fun _ _ => .inl rfl) (hp.imp fun h => .inr (.inl h)) (hp.imp fun h => .inr (.inr h)) hl hm

section Focus

variable {pos : Nat} {side : Side}

theorem isAt_of_within {address : List Nat} {a b : Nat} {l : Located} (h : Within address a b l)
    (hl : l.isAt pos side = true) : side.holds pos a b = true := by
  simp only [Located.isAt, Bool.and_eq_true] at hl
  exact Side.holds_mono hl.2 h.start h.stop

theorem filter_isAt_behind {address : List Nat} {a b n : Nat} (h : side.holds pos a b = true)
    (hn : b ≤ n) (i : Nat) (ts : List Tree) :
    (preorderOf address i n ts).filter (Located.isAt pos side) = [] := by
  rw [List.filter_eq_nil_iff]
  intro l hl
  have hw := within_preorderOf address i n ts l hl
  simp [Located.isAt, Side.holds_disjoint h (Nat.le_trans hn hw.start)]

mutual

theorem chain_focusFrom (address : List Nat) (n : Nat) (parents : List Located) :
    ∀ t : Tree, (t.focusFrom pos side address n parents).chain =
      (((t.preorderFrom address n).tail).filter (Located.isAt pos side)).reverse ++
        ⟨address, n, t⟩ :: parents
  | .leaf t => rfl
  | .node k cs => by
    have h := chain_focusAmong address 0 n (⟨address, n, node k cs⟩ :: parents) cs
    rw [focusFrom, preorderFrom, List.tail_cons]
    cases hf : focusAmong pos side address 0 n (⟨address, n, node k cs⟩ :: parents) cs with
    | none =>
      rw [hf] at h
      rw [h]
      rfl
    | some f =>
      rw [hf] at h
      exact h

theorem chain_focusAmong (address : List Nat) (i n : Nat) (parents : List Located) :
    ∀ ts : List Tree,
      match focusAmong pos side address i n parents ts with
      | none => (preorderOf address i n ts).filter (Located.isAt pos side) = []
      | some f => f.chain =
          ((preorderOf address i n ts).filter (Located.isAt pos side)).reverse ++ parents
  | [] => by simp [focusAmong, preorderOf]
  | t :: ts => by
    rw [focusAmong, preorderOf, List.filter_append]
    cases h : (t.isNode && side.holds pos n (n + t.byteLength)) with
    | true =>
      -- the first tree is entered, and what follows it is too far right
      have ht := chain_focusFrom (address ++ [i]) n parents t
      simp only [if_true]
      rw [filter_isAt_behind (Bool.and_eq_true_iff.1 h).2 (Nat.le_refl _), List.append_nil, ht]
      cases t with
      | leaf t => simp [isNode] at h
      | node k cs =>
        have hat : Located.isAt pos side ⟨address ++ [i], n, node k cs⟩ = true := h
        rw [preorderFrom, List.tail_cons, List.filter_cons_of_pos hat, List.reverse_cons,
          List.append_assoc, List.singleton_append]
    | false =>
      have ht : (t.preorderFrom (address ++ [i]) n).filter (Located.isAt pos side) = [] := by
        rw [List.filter_eq_nil_iff]
        intro l hl hat
        cases t with
        | leaf t =>
          rw [preorderFrom, List.mem_singleton] at hl
          subst hl
          simp [Located.isAt, isNode] at hat
        | node k cs =>
          rw [isAt_of_within (within_preorderFrom _ n (node k cs) l hl) hat] at h
          cases h
      rw [ht, List.nil_append]
      exact chain_focusAmong address (i + 1) (n + t.byteLength) parents ts

end

theorem chain_focus (root : Tree) : (root.focus pos side).chain =
    ((root.preorder.tail).filter (Located.isAt pos side)).reverse ++ [root.located] :=
  chain_focusFrom [] 0 [] root

theorem nodes_and_chain (root : Tree) (pos : Nat) (side : Side) (h : root.isNode = true) :
    ∃ below, root.nodes = root.located :: below ∧
      (root.focus pos side).chain.reverse =
        root.located :: below.filter fun n => side.holds pos n.start n.stop := by
  cases root with
  | leaf t => cases h
  | node k cs =>
    refine ⟨(preorderOf [] 0 0 cs).filter (·.tree.isNode), rfl, ?_⟩
    rw [chain_focus, List.reverse_append, List.reverse_reverse, List.filter_filter]
    simp only [Bool.and_comm (Side.holds _ _ _ _)]
    rfl

end Focus

end Tree

end LosslessYaml
