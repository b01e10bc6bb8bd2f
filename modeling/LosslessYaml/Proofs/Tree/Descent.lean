import LosslessYaml.Proofs.Tree.Address

namespace LosslessYaml.Tree

variable {root : Tree} {pos : Nat} {side : Side} {n m : Located}

theorem mem_chain_focus (h : root.isNode = true) (hn : n ∈ (root.focus pos side).chain) :
    n ∈ root.nodes ∧ (n = root.located ∨ side.holds pos n.start n.stop = true) := by
  obtain ⟨below, hnodes, hchain⟩ := nodes_and_chain root pos side h
  rw [← List.mem_reverse, hchain] at hn
  rw [hnodes]
  rcases List.mem_cons.1 hn with rfl | hn
  · exact ⟨List.mem_cons_self, .inl rfl⟩
  · obtain ⟨hn, hat⟩ := List.mem_filter.1 hn
    exact ⟨List.mem_cons_of_mem _ hn, .inr hat⟩

theorem mem_chain_of_holds (hroot : root.isNode = true) (hn : n ∈ root.nodes)
    (h : side.holds pos n.start n.stop = true) : n ∈ (root.focus pos side).chain := by
  obtain ⟨below, hnodes, hchain⟩ := nodes_and_chain root pos side hroot
  rw [← List.mem_reverse, hchain]
  rw [hnodes] at hn
  rcases List.mem_cons.1 hn with rfl | hn
  · exact List.mem_cons_self
  · exact List.mem_cons_of_mem _ (List.mem_filter.2 ⟨hn, h⟩)

theorem located_mem_nodes (hroot : root.isNode = true) : root.located ∈ root.nodes := by
  obtain ⟨below, hnodes, -⟩ := nodes_and_chain root 0 .around hroot
  rw [hnodes]
  exact List.mem_cons_self

theorem eq_located_of_encloses (hroot : root.isNode = true) (hn : n ∈ root.nodes)
    (h : n.encloses root.located = true) : n = root.located :=
  eq_of_address hn (located_mem_nodes hroot) (List.prefix_nil.1 (Located.encloses_iff.1 h))

theorem mem_focus (hroot : root.isNode = true) (pos : Nat) (side : Side) :
    (root.focus pos side).node ∈ root.nodes ∧ ((root.focus pos side).node = root.located ∨
      side.holds pos (root.focus pos side).node.start (root.focus pos side).node.stop = true) :=
  mem_chain_focus hroot List.mem_cons_self

theorem address_of_mem_chain (h : n ∈ (root.focus pos side).chain) :
    n.address <+: (root.focus pos side).node.address := by
  have hpairs : (root.focus pos side).chain.Pairwise fun l p => p.address <+: l.address := by
    have : IsTrans Located fun l p => p.address <+: l.address := ⟨fun _ _ _ hl hp => hp.trans hl⟩
    refine ((root.isChain_focus pos side).imp fun l p hl => ?_).pairwise
    obtain ⟨i, hi⟩ := Located.address_of_mem_children hl
    rw [hi]
    exact List.prefix_append _ _
  rcases List.mem_cons.1 h with rfl | h
  · exact List.prefix_refl _
  · exact (List.pairwise_cons.1 hpairs).1 n h

theorem within_of_encloses (hn : n ∈ root.nodes) (hm : m ∈ root.nodes) (h : n.encloses m = true) :
    Within n.address n.start n.stop m :=
  within_preorderFrom n.address n.start n.tree m (mem_preorderFrom_of_encloses hn hm h)

/-- The nodes that a descent passes are the node that it ends at and the nodes around this one. -/
theorem mem_chain_iff_encloses (hroot : root.isNode = true) (hn : n ∈ root.nodes) :
    n ∈ (root.focus pos side).chain ↔ n.encloses (root.focus pos side).node = true := by
  refine ⟨fun h => Located.encloses_iff.2 (address_of_mem_chain h), fun h => ?_⟩
  obtain ⟨hmem, heq | hat⟩ := mem_focus hroot pos side
  · rw [heq] at h
    rw [eq_located_of_encloses hroot hn h, ← heq]
    exact List.mem_cons_self
  · have hw := within_of_encloses hn hmem h
    exact mem_chain_of_holds hroot hn (Side.holds_mono hat hw.start hw.stop)

theorem encloses_focus_iff (hroot : root.isNode = true) (hn : n ∈ root.nodes) :
    n.encloses (root.focus pos side).node = true ↔
      n = root.located ∨ side.holds pos n.start n.stop = true := by
  rw [← mem_chain_iff_encloses hroot hn]
  refine ⟨fun h => (mem_chain_focus hroot h).2, ?_⟩
  rintro (rfl | h)
  · exact (mem_chain_iff_encloses hroot hn).2 rfl
  · exact mem_chain_of_holds hroot hn h

end LosslessYaml.Tree
