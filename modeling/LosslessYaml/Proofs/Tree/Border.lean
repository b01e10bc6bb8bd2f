import LosslessYaml.Proofs.Tree.Parent

namespace LosslessYaml

namespace Tree

mutual

theorem exists_leaf_preorderFrom {x : Token} (address : List Nat) (n : Nat) :
    ∀ (t : Tree) (ts us : List Token), t.leaves = ts ++ x :: us →
      ∃ q ∈ t.preorderFrom address n, q.tree = .leaf x ∧ q.start = n + Text.byteLength (Token.textOf ts)
  | .leaf y, ts, us, h => by
    rw [leaves, List.singleton_eq_append_iff] at h
    rw [preorderFrom]
    rcases h with ⟨rfl, h⟩ | ⟨-, h⟩
    · obtain ⟨rfl, -⟩ := List.cons.inj h
      exact ⟨_, List.mem_cons_self, rfl, rfl⟩
    · cases h
  | .node k cs, ts, us, h => by
    obtain ⟨q, hq, hleaf⟩ := exists_leaf_preorderOf address 0 n cs ts us h
    rw [preorderFrom]
    exact ⟨q, List.mem_cons_of_mem _ hq, hleaf⟩

theorem exists_leaf_preorderOf {x : Token} (address : List Nat) (i n : Nat) :
    ∀ (cs : List Tree) (ts us : List Token), leavesOf cs = ts ++ x :: us →
      ∃ q ∈ preorderOf address i n cs, q.tree = .leaf x ∧ q.start = n + Text.byteLength (Token.textOf ts)
  | [], ts, us, h => by
    rw [leavesOf] at h
    simp at h
  | t :: cs, ts, us, h => by
    rw [leavesOf, List.append_eq_append_iff] at h
    have behind {vs : List Token} (hts : ts = t.leaves ++ vs) (hcs : leavesOf cs = vs ++ x :: us) :
        ∃ q ∈ preorderOf address i n (t :: cs), q.tree = .leaf x ∧ q.start = n + Text.byteLength (Token.textOf ts) := by
      obtain ⟨q, hq, hleaf, hstart⟩ := exists_leaf_preorderOf address (i + 1) (n + t.byteLength) cs vs us hcs
      refine ⟨q, List.mem_append_right _ hq, hleaf, ?_⟩
      rw [hstart, hts, Token.textOf_append, Text.byteLength_append, byteLength_eq, text, Nat.add_assoc]
    rcases h with ⟨vs, hts, hcs⟩ | ⟨vs, ht, hvs⟩
    · exact behind hts hcs
    · cases vs with
      | nil =>
        rw [List.append_nil] at ht
        exact @behind [] (by rw [ht, List.append_nil]) hvs.symm
      | cons v vs =>
        obtain ⟨rfl, -⟩ := List.cons.inj hvs
        obtain ⟨q, hq, hleaf⟩ := exists_leaf_preorderFrom (address ++ [i]) n t ts vs ht
        exact ⟨q, List.mem_append_left _ hq, hleaf⟩

end

theorem byteLength_of_leaf {t : Tree} {x : Token} (h : t = .leaf x) : t.byteLength = Text.byteLength x.text := by
  rw [h, byteLength]

section Border

variable {t root : Tree} {address : List Nat} {n : Nat} {x : Token} {us : List Token} {l m q : Located}

theorem exists_first (address : List Nat) (n : Nat) (h : t.leaves = x :: us) :
    ∃ q ∈ t.preorderFrom address n, q.tree = .leaf x ∧ q.start = n :=
  exists_leaf_preorderFrom address n t [] us h

theorem exists_last (address : List Nat) (n : Nat) (h : t.leaves = us ++ [x]) :
    ∃ q ∈ t.preorderFrom address n, q.tree = .leaf x ∧ q.stop = n + t.byteLength := by
  obtain ⟨q, hq, hleaf, hstart⟩ := exists_leaf_preorderFrom address n t us [] h
  refine ⟨q, hq, hleaf, ?_⟩
  rw [Located.stop, hstart, byteLength_of_leaf hleaf, byteLength_eq, text, h, Token.textOf_append,
    Text.byteLength_append, Token.textOf_cons, Token.textOf_nil, List.append_nil, Nat.add_assoc]

theorem leaves_of_stop (ht : ∀ y ∈ t.leaves, 0 < Text.byteLength y.text) (hq : q ∈ t.preorderFrom address n)
    (hleaf : q.tree = .leaf x) (hstop : q.stop = n + t.byteLength) : ∃ ts, t.leaves = ts ++ [x] := by
  obtain ⟨ts, us, hleaves, hstart⟩ := leaves_preorderFrom address n t q hq
  rw [hleaf, leaves, List.singleton_append] at hleaves
  cases us with
  | nil => exact ⟨ts, hleaves⟩
  | cons u us =>
    have hpos := ht u (by rw [hleaves]; simp)
    have hlength : t.byteLength = Text.byteLength (Token.textOf ts) + (Text.byteLength x.text +
        (Text.byteLength u.text + Text.byteLength (Token.textOf us))) := by
      simp [byteLength_eq, text, hleaves, Token.textOf]
    rw [Located.stop, hstart, byteLength_of_leaf hleaf] at hstop
    omega

theorem eq_of_meets {y : Token} (hl : l ∈ root.preorder) (hm : m ∈ root.preorder) (hx : l.tree = .leaf x)
    (hy : m.tree = .leaf y) (hlm : l.start < m.stop) (hml : m.start < l.stop) : l = m := by
  rcases address_or_apart hl hm with h | h | h | h
  · have hbelow := mem_below_preorderFrom h [] 0 root hl hm
    rw [hx, preorderFrom, List.mem_singleton, ← hx] at hbelow
    exact hbelow.symm
  · have hbelow := mem_below_preorderFrom h [] 0 root hm hl
    rwa [hy, preorderFrom, List.mem_singleton, ← hy] at hbelow
  · omega
  · omega

theorem encloses_of_meets (hl : l ∈ root.preorder) (hx : l.tree = .leaf x) (hm : m ∈ root.nodes)
    (hlm : l.start < m.stop) (hml : m.start < l.stop) : m.encloses l = true := by
  obtain ⟨hm, hnode⟩ := List.mem_filter.1 hm
  rcases address_or_apart hl hm with h | h | h | h
  · have hbelow := mem_below_preorderFrom h [] 0 root hl hm
    rw [hx, preorderFrom, List.mem_singleton] at hbelow
    rw [hbelow] at hnode
    cases hnode
  · exact Located.encloses_iff.2 h
  · omega
  · omega

end Border

end Tree

namespace Located

theorem split_of_mem_childrenFrom {address : List Nat} {i n : Nat} {ts : List Tree} {l : Located}
    (h : l ∈ childrenFrom address i n ts) :
    ∃ ds es, ts = ds ++ l.tree :: es ∧ l.start = n + Tree.byteLengthOf ds := by
  induction ts generalizing i n with
  | nil => cases h
  | cons t ts ih =>
    rcases List.mem_cons.1 h with rfl | h
    · exact ⟨[], ts, rfl, rfl⟩
    · obtain ⟨ds, es, rfl, hstart⟩ := ih h
      exact ⟨t :: ds, es, rfl, by rw [hstart, Tree.byteLengthOf, Nat.add_assoc]⟩

theorem mem_preorderOf_of_mem_childrenFrom {address : List Nat} {i n : Nat} {ts : List Tree} {l : Located}
    (h : l ∈ childrenFrom address i n ts) : l ∈ Tree.preorderOf address i n ts := by
  induction ts generalizing i n with
  | nil => cases h
  | cons t ts ih =>
    rw [Tree.preorderOf, List.mem_append]
    rcases List.mem_cons.1 h with rfl | h
    · left
      cases t with
      | leaf x =>
        rw [Tree.preorderFrom]
        exact List.mem_cons_self
      | node k cs => exact List.mem_cons_self
    · exact .inr (ih h)

theorem mem_preorderFrom_of_mem_children {l n : Located} (h : l ∈ n.children) :
    l ∈ n.tree.preorderFrom n.address n.start := by
  cases htree : n.tree with
  | leaf t =>
    rw [children, htree] at h
    cases h
  | node k cs =>
    rw [children, htree] at h
    rw [Tree.preorderFrom]
    exact List.mem_cons_of_mem _ (mem_preorderOf_of_mem_childrenFrom h)

theorem split_of_mem_children {l n : Located} (h : l ∈ n.children) :
    ∃ ds es, n.tree.children = ds ++ l.tree :: es ∧
      ∀ cs e, ds = cs ++ [e] → ∃ x ∈ n.children, x.tree = e ∧ x.stop = l.start := by
  obtain ⟨ds, es, hsplit, hstart⟩ := split_of_mem_childrenFrom h
  refine ⟨ds, es, hsplit, ?_⟩
  rintro cs e rfl
  refine ⟨⟨n.address ++ [0 + cs.length], n.start + Tree.byteLengthOf cs, e⟩, ?_, rfl, ?_⟩
  · rw [children, hsplit, List.append_assoc, childrenFrom_append]
    exact List.mem_append_right _ List.mem_cons_self
  · rw [hstart, Tree.byteLengthOf_append, Tree.byteLengthOf, Tree.byteLengthOf, stop, Nat.add_zero, Nat.add_assoc]

end Located

end LosslessYaml
