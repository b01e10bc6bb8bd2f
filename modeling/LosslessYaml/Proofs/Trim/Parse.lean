import LosslessYaml.Proofs.Flow.Brackets
import LosslessYaml.Proofs.Tree.Border
import LosslessYaml.Proofs.Tree.Descent
import LosslessYaml.Proofs.Trim.Block

namespace LosslessYaml

open Token (StartsBare EndsBare EndsFilled gapAhead)

theorem Token.EndsFilled.last {ts : List Token} (h : EndsFilled ts) :
    ∃ us x, ts = us ++ [x] ∧ x.kind ≠ .newline := by
  obtain ⟨us, t, vs, rfl, -, hvs⟩ := h
  obtain ⟨ws, x, hlast⟩ : ∃ ws x, t :: vs = ws ++ [x] := by
    rcases List.eq_nil_or_concat (t :: vs) with h | ⟨ws, x, h⟩
    · cases h
    · exact ⟨ws, x, by rw [h, List.concat_eq_append]⟩
  exact ⟨us ++ ws, x, by rw [hlast, List.append_assoc], hvs x (by rw [hlast]; simp)⟩

theorem Tree.EndsIn.exists {k : Kind} {t : Tree} (h : t.EndsIn k) (address : List Nat) (n : Nat) :
    ∃ b ∈ t.preorderFrom address n, b.tree.isNode = true ∧ b.kind = k ∧ b.stop = n + t.byteLength := by
  induction h generalizing address n with
  | here cs => exact ⟨⟨address, n, .node k cs⟩, List.mem_cons_self, rfl, rfl, rfl⟩
  | last k' cs _ ih =>
    obtain ⟨b, hb, hnode, hkind, hstop⟩ := ih (address ++ [0 + cs.length]) (n + byteLengthOf cs)
    refine ⟨b, ?_, hnode, hkind, ?_⟩
    · rw [preorderFrom, preorderOf_append, preorderOf, preorderOf, List.append_nil]
      exact List.mem_cons_of_mem _ (List.mem_append_right _ hb)
    · rw [hstop, byteLength, byteLengthOf_append, byteLengthOf, byteLengthOf, Nat.add_zero, Nat.add_assoc]

namespace Trim

open LosslessYaml.Tree

variable {s : List Char} {l m n p q : Located} {x : Token}

theorem neat_of_mem_nodes (hn : n ∈ (parse s).nodes) :
    n.tree = .node n.kind n.tree.children ∧ Neat n.kind n.tree.children := by
  obtain ⟨hn, hnode⟩ := List.mem_filter.1 hn
  obtain ⟨-, -, hpart⟩ := Tree.Every.preorderFrom [] (Grammar.neat_parse s) n hn
  rw [Located.kind]
  cases htree : n.tree with
  | leaf t =>
    rw [htree] at hnode
    cases hnode
  | node k cs =>
    rw [htree] at hpart
    exact ⟨rfl, hpart⟩

theorem leaves_of_mem_nodes (hn : n ∈ (parse s).nodes) : n.tree.leaves = leavesOf n.tree.children := by
  conv => lhs; rw [(neat_of_mem_nodes hn).1]
  rw [leaves]

theorem mem_preorder_of_below (hn : n ∈ (parse s).nodes) (h : l ∈ n.tree.preorderFrom n.address n.start) :
    l ∈ (parse s).preorder :=
  preorderFrom_subset [] 0 (parse s) (List.mem_filter.1 hn).1 l h

theorem below_of_encloses (hn : n ∈ (parse s).nodes) (hp : p ∈ (parse s).preorder) (h : n.encloses p = true) :
    p ∈ n.tree.preorderFrom n.address n.start :=
  mem_below_preorderFrom (Located.encloses_iff.1 h) [] 0 (parse s) (List.mem_filter.1 hn).1 hp

theorem byteLength_pos_of_mem_leaves (hl : l ∈ (parse s).preorder) (hx : x ∈ l.tree.leaves) :
    0 < Text.byteLength x.text := by
  obtain ⟨ts, us, hs, -⟩ := leaves_preorderFrom [] 0 (parse s) l hl
  obtain ⟨vs, ws, hleaves⟩ := List.append_of_mem hx
  rw [leaves_parse, hleaves, List.append_assoc, List.cons_append, ← List.append_assoc] at hs
  exact Token.byteLength_text_pos hs

structure InRow (s : List Char) (n m : Located) (front : List Tree) : Prop where
  parent : n ∈ (parse s).nodes
  child : m ∈ n.children
  row : Tidy m.tree ∨ Exempt n.kind front m.tree
  before : ∀ cs e, front = cs ++ [e] → ∃ y ∈ n.children, y.tree = e ∧ y.stop = m.start

theorem exists_inRow (hm : m ∈ (parse s).nodes) (ha : m.address ≠ []) : ∃ n front, InRow s n m front := by
  obtain ⟨hm, -⟩ := List.mem_filter.1 hm
  rcases exists_parent_preorderFrom [] 0 (parse s) m hm with rfl | ⟨n, hn, hchild⟩
  · exact absurd rfl ha
  · have hn' : n ∈ (parse s).nodes := List.mem_filter.2 ⟨hn, isNode_of_mem_children hchild⟩
    obtain ⟨front, es, hsplit, hbefore⟩ := Located.split_of_mem_children hchild
    have hrow := (neat_of_mem_nodes hn').2.row
    rw [hsplit] at hrow
    exact ⟨n, front, hn', hchild, hrow.split, hbefore⟩

theorem InRow.encloses {front : List Tree} (h : InRow s n m front) : n.encloses m = true := by
  obtain ⟨j, hj⟩ := Located.address_of_mem_children h.child
  rw [Located.encloses_iff, hj]
  exact List.prefix_append _ _

theorem InRow.mem_preorder {front : List Tree} (h : InRow s n m front) {y : Located} (hy : y ∈ n.children) :
    y ∈ (parse s).preorder :=
  mem_preorder_of_below h.parent (Located.mem_preorderFrom_of_mem_children hy)

theorem address_ne_nil (hl : l ∈ (parse s).nodes) (hk : l.kind ≠ .stream) : l.address ≠ [] := by
  intro h
  have hroot : (parse s).located ∈ (parse s).nodes := located_mem_nodes rfl
  rw [eq_of_address hl hroot h] at hk
  exact hk rfl

section Ends

variable (hl : l ∈ (parse s).nodes) (hk : l.kind ≠ .stream)
include hl hk

theorem filled_or_empty : EndsFilled l.tree.leaves ∨ l.tree = .node .blockLiteralContent [] := by
  obtain ⟨htree, hneat⟩ := neat_of_mem_nodes hl
  rcases hneat.filled hk with h | ⟨hkind, hnil⟩
  · exact .inl (leaves_of_mem_nodes hl ▸ h)
  · exact .inr (by rw [htree, hkind, hnil])

omit hk in
theorem filled_of_kind (h : l.kind ∉ [Kind.stream, .blockLiteralContent]) : EndsFilled l.tree.leaves := by
  simp only [List.mem_cons, List.not_mem_nil, or_false, not_or] at h
  refine (filled_or_empty hl h.1).resolve_right fun hempty => h.2 ?_
  rw [Located.kind, hempty]
  rfl

omit hk in
theorem exists_last_of_filled (h : EndsFilled l.tree.leaves) :
    ∃ q ∈ (parse s).preorder, ∃ x : Token, q.tree = .leaf x ∧ x.kind ≠ .newline ∧ q.stop = l.stop ∧
      l.start < l.stop := by
  obtain ⟨us, x, hleaves, hx⟩ := h.last
  obtain ⟨q, hq, htree, hstop⟩ := exists_last l.address l.start hleaves
  have hmem := mem_preorder_of_below hl hq
  have hstart := (within_preorderFrom l.address l.start l.tree q hq).start
  have hpos := Grammar.start_lt_stop_of_leaf hmem htree
  have hlast : q.stop = l.stop := hstop
  exact ⟨q, hmem, x, htree, hx, hlast, by omega⟩

theorem exists_token_before_stop :
    ∃ q ∈ (parse s).preorder, ∃ x : Token, q.tree = .leaf x ∧ x.kind ≠ .newline ∧ q.stop = l.stop := by
  -- an empty node stands behind the header of its block scalar. So in front of the stop of every node is a token that
  -- is no line break
  rcases filled_or_empty hl hk with h | hempty
  · obtain ⟨q, hq, x, htree, hx, hstop, -⟩ := exists_last_of_filled hl h
    exact ⟨q, hq, x, htree, hx, hstop⟩
  · obtain ⟨n, front, hrow⟩ := exists_inRow hl (address_ne_nil hl hk)
    have hexempt : Exempt n.kind front (.node .blockLiteralContent []) := by
      rw [← hempty]
      refine hrow.row.resolve_left fun htidy => (htidy (by rw [hempty]; rfl)).2 ?_
      rw [hempty]
      decide
    obtain ⟨cs, hfront⟩ := hexempt.header_of_empty
    obtain ⟨y, hy, htree, hstop⟩ := hrow.before [] _ hfront
    have hheader : y ∈ (parse s).nodes := List.mem_filter.2 ⟨hrow.mem_preorder hy, by rw [htree]; rfl⟩
    have hkind : y.kind = .blockLiteralHeader := by rw [Located.kind, htree]; rfl
    have hfilled := filled_of_kind hheader (by rw [hkind]; decide)
    obtain ⟨q, hq, x, hleaf, hx, hlast, -⟩ := exists_last_of_filled hheader hfilled
    refine ⟨q, hq, x, hleaf, hx, ?_⟩
    rw [hlast, hstop, Located.stop, hempty]
    rfl

omit hk in
theorem exists_leaves_of_last (hp : p ∈ (parse s).preorder) (hx : p.tree = .leaf x) (h : l.encloses p = true)
    (hstop : p.stop = l.stop) : ∃ ts, l.tree.leaves = ts ++ [x] :=
  leaves_of_stop (fun _ hy => byteLength_pos_of_mem_leaves (List.mem_filter.1 hl).1 hy) (below_of_encloses hl hp h) hx
    hstop

theorem filled_of_leaves {ts : List Token} (h : l.tree.leaves = ts ++ [x]) : EndsFilled l.tree.leaves :=
  (filled_or_empty hl hk).resolve_right fun hempty => by
    rw [hempty] at h
    simp [leaves, leavesOf] at h

theorem kind_of_last (hp : p ∈ (parse s).preorder) (hx : p.tree = .leaf x) (h : l.encloses p = true)
    (hstop : p.stop = l.stop) : x.kind ≠ .newline := by
  obtain ⟨ts, hlast⟩ := exists_leaves_of_last hl hp hx h hstop
  obtain ⟨us, y, hleaves, hy⟩ := (filled_of_leaves hl hk hlast).last
  obtain ⟨-, rfl⟩ := List.append_singleton_inj.1 (hleaves.symm.trans hlast)
  exact hy

omit hk in
theorem exists_of_endsIn (hp : p ∈ (parse s).preorder) (hx : p.tree = .leaf x) (hstop : p.stop = l.stop)
    (h : l.tree.EndsIn .blockLiteral) : ∃ b ∈ (parse s).nodes, b.kind = .blockLiteral ∧ b.encloses p = true := by
  obtain ⟨b, hb, hnode, hkind, hbstop⟩ := h.exists l.address l.start
  have hbmem : b ∈ (parse s).nodes := List.mem_filter.2 ⟨mem_preorder_of_below hl hb, hnode⟩
  have hfilled := filled_of_kind hbmem (by rw [hkind]; decide)
  obtain ⟨-, -, -, -, -, -, hbpos⟩ := exists_last_of_filled hbmem hfilled
  have hpos := Grammar.start_lt_stop_of_leaf hp hx
  have hsame : b.stop = l.stop := hbstop
  exact ⟨b, hbmem, hkind, encloses_of_meets hp hx hbmem (by omega) (by omega)⟩

theorem exists_blockLiteral_of_last (hp : p ∈ (parse s).preorder) (hx : p.tree = .leaf x) (h : l.encloses p = true)
    (hstop : p.stop = l.stop) (htrivia : x.kind.isTrivia = true) :
    ∃ b ∈ (parse s).nodes, b.kind = .blockLiteral ∧ b.encloses p = true := by
  by_cases hpart : l.kind ∈ literalParts
  · -- the parts of a block scalar are below it
    obtain ⟨n, front, hrow⟩ := exists_inRow hl (address_ne_nil hl hk)
    have hexempt := hrow.row.resolve_left fun htidy => (htidy (List.mem_filter.1 hl).2).2 hpart
    refine ⟨n, hrow.parent, hexempt.blockLiteral_of_part hpart, Located.encloses_iff.2 ?_⟩
    exact (Located.encloses_iff.1 hrow.encloses).trans (Located.encloses_iff.1 h)
  · obtain ⟨htree, hneat⟩ := neat_of_mem_nodes hl
    rcases hneat.bare (List.not_mem_cons_of_ne_of_not_mem hk hpart) with ⟨us, y, hleaves, hy⟩ | hends
    · obtain ⟨ts, hlast⟩ := exists_leaves_of_last hl hp hx h hstop
      rw [← leaves_of_mem_nodes hl] at hleaves
      obtain ⟨-, rfl⟩ := List.append_singleton_inj.1 (hleaves.symm.trans hlast)
      rw [hy] at htrivia
      cases htrivia
    · exact exists_of_endsIn hl hp hx hstop (htree ▸ hends)

end Ends

def Strays (root : Tree) (m : Located) : Prop :=
  ∃ n ∈ root.nodes, m ∈ n.children ∧ StartsBlank n.kind m.tree.leaves ∧
    ∃ e ∈ n.children, e.stop = m.start ∧ (n.kind, e.kind, m.kind) ∈ strayKinds

/-- A token of trivia that stands behind `l` with nothing but trivia in front of it. -/
structure Trails (root : Tree) (l p : Located) : Prop where
  behind : l.stop ≤ p.start
  trivia : ∀ q ∈ root.preorder, q.tree.isNode = false → l.stop ≤ q.start → q.stop ≤ p.stop → q.kind.isTrivia = true

/-- A node starts with a token that is no trivia, or it strays, or it is the content of a block scalar and stands behind
a line break. -/
theorem starts_cases (hm : m ∈ (parse s).nodes) (ha : m.address ≠ []) (hne : m.tree.leaves ≠ []) :
    StartsBare m.tree.leaves ∨ Strays (parse s) m ∨
      m.kind = .blockLiteralContent ∧
        ∃ q ∈ (parse s).preorder, ∃ y : Token, q.tree = .leaf y ∧ y.kind = .newline ∧ q.stop = m.start := by
  by_cases hs : StartsBare m.tree.leaves
  · exact .inl hs
  · obtain ⟨n, front, hrow⟩ := exists_inRow hm ha
    have hexempt := hrow.row.resolve_left fun htidy => hs (htidy (List.mem_filter.1 hm).2).1
    right
    rcases hexempt.cases_trivia hne hs with ⟨hkind, ds, y, hfront, hy⟩ | ⟨ds, e, hfront, hkinds, hblank⟩
    · obtain ⟨q, hq, htree, hstop⟩ := hrow.before ds _ hfront
      exact .inr ⟨hkind, q, hrow.mem_preorder hq, y, htree, hy, hstop⟩
    · obtain ⟨q, hq, rfl, hstop⟩ := hrow.before ds _ hfront
      exact .inl ⟨n, hrow.parent, hrow.child, hblank, q, hq, hstop, hkinds⟩

theorem not_startsBare (hm : m ∈ (parse s).nodes) (hp : p ∈ (parse s).preorder) (hx : p.tree = .leaf x)
    (hmp : m.encloses p = true) (ht : Trails (parse s) l p) (hlm : l.stop ≤ m.start) : ¬ StartsBare m.tree.leaves := by
  rintro ⟨y, us, hleaves, hy⟩
  obtain ⟨q, hq, hqy, hstart⟩ := exists_first m.address m.start hleaves
  have hqmem := mem_preorder_of_below hm hq
  have hwithin := within_preorderFrom _ _ _ p (below_of_encloses hm hp hmp)
  have hppos := Grammar.start_lt_stop_of_leaf hp hx
  have htrivia : q.kind.isTrivia = true := by
    by_cases hqp : q.stop ≤ p.start
    · exact ht.trivia q hqmem (by rw [hqy]; rfl) (by omega) (by omega)
    · have hsame : q = p := eq_of_meets hqmem hp hqy hx (by have := hwithin.start; omega) (by omega)
      exact ht.trivia q hqmem (by rw [hqy]; rfl) (by omega) (by rw [hsame])
  rw [Located.kind, hqy, Tree.kind, hy] at htrivia
  cases htrivia

/-- Trivia behind a node belongs to a node around it, or it is in a block scalar behind a line break, or at the start of
a node that strays. -/
theorem exists_parent_of_trails (hl : l ∈ (parse s).nodes) (hk : l.kind ≠ .stream) (hp : p ∈ (parse s).preorder)
    (hx : p.tree = .leaf x) (ht : Trails (parse s) l p) :
    ∃ m ∈ (parse s).nodes, p ∈ m.children ∧
      (m.isAbove l = true ∨ m.kind = .blockLiteralContent ∧ l.stop < m.start ∨ Strays (parse s) m) := by
  have hpos := Grammar.start_lt_stop_of_leaf hp hx
  have hlp := ht.behind
  obtain rfl | ⟨m, hm, hchild⟩ := exists_parent_preorderFrom [] 0 (parse s) p hp
  · cases hx
  have hmnode : m ∈ (parse s).nodes := List.mem_filter.2 ⟨hm, isNode_of_mem_children hchild⟩
  have hbelow := Located.mem_preorderFrom_of_mem_children hchild
  have hwithin := within_preorderFrom _ _ _ p hbelow
  have hstart := hwithin.start
  have hstop : p.stop ≤ m.stop := hwithin.stop
  refine ⟨m, hmnode, hchild, ?_⟩
  by_cases hml : m.address <+: l.address
  · refine .inl (Located.isAbove_iff.2 ⟨hml, fun heq => ?_⟩)
    rw [eq_of_address hmnode hl heq] at hstop
    omega
  · right
    have hlm : l.stop ≤ m.start := by
      rcases address_or_apart hm (List.mem_filter.1 hl).1 with h | h | h | h
      · exact absurd h hml
      · -- what is below `l` stops in front of the trivia
        have hle : m.stop ≤ l.stop := (within_of_encloses hl hmnode (Located.encloses_iff.2 h)).stop
        omega
      · have : l.start ≤ l.stop := Nat.le_add_right _ _
        omega
      · exact h
    have hne : m.tree.leaves ≠ [] := fun hnil => by
      have hempty : m.stop = m.start := by rw [Located.stop, byteLength_eq, text, hnil]; rfl
      omega
    have hencloses := Located.encloses_iff.2 hwithin.address
    have haddress : m.address ≠ [] := fun hnil => hml (hnil ▸ List.nil_prefix)
    rcases starts_cases hmnode haddress hne with hs | hs | ⟨hkind, q, hq, y, hy, hbreak, hqm⟩
    · exact absurd hs (not_startsBare hmnode hp hx hencloses ht hlm)
    · exact .inr hs
    · refine .inl ⟨hkind, Nat.lt_of_le_of_ne hlm fun heq => ?_⟩
      -- the line break would be the token in front of the stop of `l`
      obtain ⟨r, hr, z, hz, hzbreak, hrl⟩ := exists_token_before_stop hl hk
      have hqpos := Grammar.start_lt_stop_of_leaf hq hy
      have hrpos := Grammar.start_lt_stop_of_leaf hr hz
      obtain rfl := eq_of_meets hq hr hy hz (by omega) (by omega)
      rw [hy] at hz
      cases hz
      exact hzbreak hbreak

/-- How a node of a tree ends, and which node the trivia behind it belongs to. -/
structure Closes (root : Tree) (l : Located) : Prop where
  filled : l.tree = .node .blockLiteralContent [] ∨ EndsFilled l.tree.leaves
  last : ∀ p ∈ root.preorder, ∀ x : Token, p.tree = .leaf x → l.encloses p = true → p.stop = l.stop →
    x.kind ≠ .newline ∧ (x.kind.isTrivia = true → ∃ b ∈ root.nodes, b.kind = .blockLiteral ∧ b.encloses p = true)
  trivia : ∀ p ∈ root.preorder, ∀ x : Token, p.tree = .leaf x → Trails root l p →
    ∃ m ∈ root.nodes, p ∈ m.children ∧
      (m.isAbove l = true ∨ m.kind = .blockLiteralContent ∧ l.stop < m.start ∨ Strays root m)

end Trim

open Trim

/-- Every node below the stream is the empty content of a block scalar, or its last line is not blank. The token at its
stop is no line break, and it is trivia only in a block scalar. The trivia that follows the node belongs to a node
around it, but for the blank that another node starts with where it strays, and for blanks in a block scalar. -/
theorem parse_closes (s : List Char) (l : Located) (hl : l ∈ (parse s).nodes) (hk : l.kind ≠ .stream) :
    Closes (parse s) l where
  filled := (filled_or_empty hl hk).symm
  last _ hp _ hx h hstop := ⟨kind_of_last hl hk hp hx h hstop, exists_blockLiteral_of_last hl hk hp hx h hstop⟩
  trivia _ hp _ hx ht := exists_parent_of_trails hl hk hp hx ht

theorem parse_closes_bracketed_key :
    ∃ l ∈ (parse "[a] b: c".toList).nodes, l.kind = .flowSequence ∧ l.kind ≠ .stream ∧
      Closes (parse "[a] b: c".toList) l := by
  obtain ⟨l, hl, hkind⟩ : ∃ l ∈ (parse "[a] b: c".toList).nodes, l.kind = .flowSequence := by
    decide +kernel
  have hk : l.kind ≠ .stream := by
    rw [hkind]
    decide
  exact ⟨l, hl, hkind, hk, parse_closes _ l hl hk⟩

/-- In `[a] b: c` the blank that follows the key's collection belongs to the error behind it. -/
theorem blank_taken_by_error :
    ∃ l ∈ (parse "[a] b: c".toList).nodes, l.kind = .flowSequence ∧
      ∃ m ∈ (parse "[a] b: c".toList).nodes, m.kind = .error ∧ m.isAbove l = false ∧
        ∃ p ∈ m.children, p.tree.isNode = false ∧ p.kind = .whitespace ∧ p.start = l.stop := by
  decide +kernel

/-- A plain scalar starts with a token that is no trivia, or it is in a pair directly behind an anchor or a tag, and
starts with a blank and a colon that a gap follows. -/
theorem parse_literal_start {s : List Char} {l : Located} (hl : l ∈ (parse s).nodes) (hk : l.kind = .literal) :
    StartsBare l.tree.leaves ∨
      ∃ n ∈ (parse s).nodes, n.kind = .pair ∧ l ∈ n.children ∧
        (∃ e ∈ n.children, (e.kind = .anchor ∨ e.kind = .tag) ∧ e.stop = l.start) ∧
          ∃ w c us, l.tree.leaves = w :: c :: us ∧ w.kind = .whitespace ∧ c.kind = .colon ∧ gapAhead us = true := by
  have hstream : l.kind ≠ .stream := by
    rw [hk]
    decide
  have hne : l.tree.leaves ≠ [] := (filled_of_kind hl (by rw [hk]; decide)).ne_nil
  rcases starts_cases hl (address_ne_nil hl hstream) hne with
    h | ⟨n, hn, hchild, hblank, e, he, hstop, hkinds⟩ | ⟨hkind, -⟩
  · exact .inl h
  · obtain ⟨hpair, hproperty⟩ : n.kind = .pair ∧ (e.kind = .anchor ∨ e.kind = .tag) := by
      rw [hk] at hkinds
      simpa [strayKinds, ← and_or_left] using hkinds
    obtain ⟨w, c, us, hleaves, hw, -, hcolon⟩ := hblank
    obtain ⟨hc, hgap⟩ := hcolon hpair
    exact .inr ⟨n, hn, hpair, hchild, ⟨e, he, hproperty, hstop⟩, w, c, us, hleaves, hw, hc, hgap⟩
  · rw [hk] at hkind
    cases hkind

/-- The plain scalar behind the anchor in `a: &x : b` is of the second form. -/
theorem parse_literal_start_behind_anchor :
    ∃ l ∈ (parse "a: &x : b".toList).nodes, l.kind = .literal ∧ l.start = 5 ∧
      ∃ n ∈ (parse "a: &x : b".toList).nodes, n.kind = .pair ∧ l ∈ n.children := by
  obtain ⟨l, hl, hk, hstart, hfirst⟩ : ∃ l ∈ (parse "a: &x : b".toList).nodes, l.kind = .literal ∧ l.start = 5 ∧
      l.tree.leaves.head?.map Token.kind = some .whitespace := by
    decide +kernel
  refine ⟨l, hl, hk, hstart, ?_⟩
  rcases parse_literal_start hl hk with ⟨t, us, hleaves, ht⟩ | ⟨n, hn, hpair, hchild, -⟩
  · rw [hleaves, List.head?_cons, Option.map_some, Option.some.injEq] at hfirst
    rw [hfirst] at ht
    cases ht
  · exact ⟨n, hn, hpair, hchild⟩

theorem literal_starts_with_blank :
    ∃ l ∈ (parse "a: &x : b".toList).nodes, l.kind = .literal ∧
      l.tree.leaves.head? = some ⟨.whitespace, [' ']⟩ := by
  decide +kernel

end LosslessYaml
