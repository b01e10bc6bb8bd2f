import LosslessYaml.Proofs.Tree.Address

namespace LosslessYaml

namespace Located

theorem childrenFrom_append (address : List Nat) (i n : Nat) (ts us : List Tree) :
    childrenFrom address i n (ts ++ us) =
      childrenFrom address i n ts ++ childrenFrom address (i + ts.length) (n + Tree.byteLengthOf ts) us := by
  induction ts generalizing i n with
  | nil => rfl
  | cons t ts ih =>
    rw [List.cons_append, childrenFrom, childrenFrom, ih, List.cons_append, Tree.byteLengthOf, List.length_cons]
    congr 3 <;> omega

end Located

namespace Tree

mutual

theorem preorderFrom_subset {m : Located} (address : List Nat) (n : Nat) :
    ∀ t : Tree, m ∈ t.preorderFrom address n →
      ∀ l ∈ m.tree.preorderFrom m.address m.start, l ∈ t.preorderFrom address n
  | .leaf t, hm, l, hl => by
    rw [preorderFrom, List.mem_singleton] at hm
    rwa [hm] at hl
  | .node k cs, hm, l, hl => by
    rw [preorderFrom, List.mem_cons] at hm
    rcases hm with rfl | hm
    · exact hl
    · rw [preorderFrom]
      exact List.mem_cons_of_mem _ (preorderOf_subset address 0 n cs hm l hl)

theorem preorderOf_subset {m : Located} (address : List Nat) (i n : Nat) :
    ∀ ts : List Tree, m ∈ preorderOf address i n ts →
      ∀ l ∈ m.tree.preorderFrom m.address m.start, l ∈ preorderOf address i n ts
  | [], hm, l, hl => by cases hm
  | t :: ts, hm, l, hl => by
    rw [preorderOf, List.mem_append] at hm ⊢
    rcases hm with hm | hm
    · exact .inl (preorderFrom_subset (address ++ [i]) n t hm l hl)
    · exact .inr (preorderOf_subset address (i + 1) (n + t.byteLength) ts hm l hl)

end

mutual

theorem exists_parent_preorderFrom (address : List Nat) (n : Nat) :
    ∀ t : Tree, ∀ l ∈ t.preorderFrom address n,
      l = ⟨address, n, t⟩ ∨ ∃ m ∈ t.preorderFrom address n, l ∈ m.children
  | .leaf t, l, hl => by
    rw [preorderFrom, List.mem_singleton] at hl
    exact .inl hl
  | .node k cs, l, hl => by
    rw [preorderFrom, List.mem_cons] at hl
    rcases hl with rfl | hl
    · exact .inl rfl
    · right
      rw [preorderFrom]
      rcases exists_parent_preorderOf address 0 n cs l hl with h | ⟨m, hm, h⟩
      · exact ⟨_, List.mem_cons_self, h⟩
      · exact ⟨m, List.mem_cons_of_mem _ hm, h⟩

theorem exists_parent_preorderOf (address : List Nat) (i n : Nat) :
    ∀ ts : List Tree, ∀ l ∈ preorderOf address i n ts,
      l ∈ Located.childrenFrom address i n ts ∨ ∃ m ∈ preorderOf address i n ts, l ∈ m.children
  | [], l, hl => by cases hl
  | t :: ts, l, hl => by
    rw [preorderOf, List.mem_append] at hl
    rw [Located.childrenFrom, preorderOf]
    rcases hl with hl | hl
    · rcases exists_parent_preorderFrom (address ++ [i]) n t l hl with rfl | ⟨m, hm, h⟩
      · exact .inl List.mem_cons_self
      · exact .inr ⟨m, List.mem_append_left _ hm, h⟩
    · rcases exists_parent_preorderOf address (i + 1) (n + t.byteLength) ts l hl with h | ⟨m, hm, h⟩
      · exact .inl (List.mem_cons_of_mem _ h)
      · exact .inr ⟨m, List.mem_append_right _ hm, h⟩

end

theorem isNode_of_mem_children {l m : Located} (h : l ∈ m.children) : m.tree.isNode = true := by
  cases hm : m.tree with
  | leaf t =>
    rw [Located.children, hm] at h
    cases h
  | node k cs => rfl

mutual

/-- Of two parts the earlier one is around the other or ends before it. -/
theorem pairwise_parts_preorderFrom (address : List Nat) (n : Nat) :
    ∀ t : Tree, (t.preorderFrom address n).Pairwise fun l m => l.address <+: m.address ∨ l.stop ≤ m.start
  | .leaf t => by
    rw [preorderFrom]
    exact List.pairwise_singleton _ _
  | .node k cs => by
    rw [preorderFrom, List.pairwise_cons]
    exact ⟨fun m hm => .inl (within_preorderOf address 0 n cs m hm).address,
      pairwise_parts_preorderOf address 0 n cs⟩

theorem pairwise_parts_preorderOf (address : List Nat) (i n : Nat) :
    ∀ ts : List Tree, (preorderOf address i n ts).Pairwise fun l m => l.address <+: m.address ∨ l.stop ≤ m.start
  | [] => List.Pairwise.nil
  | t :: ts => by
    rw [preorderOf, List.pairwise_append]
    refine ⟨pairwise_parts_preorderFrom (address ++ [i]) n t,
      pairwise_parts_preorderOf address (i + 1) (n + t.byteLength) ts, fun l hl m hm => .inr ?_⟩
    have hle := (within_preorderFrom _ n t l hl).stop
    exact Nat.le_trans hle (within_preorderOf _ _ _ ts m hm).start

end

variable {root : Tree} {l n : Located}

theorem address_or_apart (hl : l ∈ root.preorder) (hn : n ∈ root.preorder) :
    l.address <+: n.address ∨ n.address <+: l.address ∨ l.stop ≤ n.start ∨ n.stop ≤ l.start := by
  have hp := List.pairwise_iff_getElem.1 (pairwise_parts_preorderFrom [] 0 root)
  obtain ⟨i, hi, rfl⟩ := List.getElem_of_mem hl
  obtain ⟨j, hj, rfl⟩ := List.getElem_of_mem hn
  rcases Nat.lt_trichotomy i j with hij | rfl | hij
  · rcases hp i j hi hj hij with h | h
    · exact .inl h
    · exact .inr (.inr (.inl h))
  · exact .inl (List.prefix_refl _)
  · rcases hp j i hj hi hij with h | h
    · exact .inr (.inl h)
    · exact .inr (.inr (.inr h))

theorem mem_preorderFrom_of_range {t : Token} (hl : l ∈ root.preorder) (ht : l.tree = .leaf t)
    (hpos : l.start < l.stop) (hn : n ∈ root.nodes) (hstart : n.start ≤ l.start) (hstop : l.stop ≤ n.stop) :
    l ∈ n.tree.preorderFrom n.address n.start := by
  obtain ⟨hn, hnode⟩ := List.mem_filter.1 hn
  rcases address_or_apart hl hn with h | h | h | h
  · -- nothing is below a token
    have hbelow := mem_below_preorderFrom h [] 0 root hl hn
    rw [ht, preorderFrom, List.mem_singleton] at hbelow
    rw [hbelow] at hnode
    cases hnode
  · exact mem_below_preorderFrom h [] 0 root hn hl
  · omega
  · omega

theorem exists_parent_of_range {t : Token} (hl : l ∈ root.preorder) (ht : l.tree = .leaf t)
    (hpos : l.start < l.stop) (hn : n ∈ root.nodes) (hstart : n.start ≤ l.start) (hstop : l.stop ≤ n.stop) :
    ∃ m ∈ root.nodes, n.encloses m = true ∧ l ∈ m.children := by
  rcases exists_parent_preorderFrom _ _ _ l (mem_preorderFrom_of_range hl ht hpos hn hstart hstop) with
    rfl | ⟨m, hm, hchild⟩
  · obtain ⟨-, hnode⟩ := List.mem_filter.1 hn
    dsimp only at ht
    rw [ht] at hnode
    cases hnode
  · refine ⟨m, List.mem_filter.2 ⟨?_, isNode_of_mem_children hchild⟩, ?_, hchild⟩
    · exact preorderFrom_subset [] 0 root (List.mem_filter.1 hn).1 m hm
    · exact Located.encloses_iff.2 (within_preorderFrom _ _ _ m hm).address

end Tree

end LosslessYaml
