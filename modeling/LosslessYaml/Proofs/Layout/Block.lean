import LosslessYaml.Proofs.Layout.Line

namespace LosslessYaml

namespace Grammar

open Rule Layout LosslessYaml.Tree
open Placed (Stands)

section Forests

variable {u : List Char} {ts : List Placed} {r s : Rule} {m col : Nat}

theorem good_andThen (hl : Lossless r) (h : Stands u ts) (hr : Good m u (r ts).trees)
    (hs : ∀ v, Stands v (r ts).rest → Good m v (s (r ts).rest).trees) :
    Good m u (r.andThen s ts).trees :=
  hr.append (hs _ (stands_rest hl h))

theorem inPair_andThen (hl : Lossless r) (h : Stands u ts) (hr : InPair col u (r ts).trees)
    (hs : ∀ v, Stands v (r ts).rest → InPair col v (s (r ts).rest).trees) :
    InPair col u (r.andThen s ts).trees :=
  hr.append (hs _ (stands_rest hl h))

theorem loop_behind {F : List Char → List Tree → Prop} {test : List Placed → Bool} (hl : Lossless r)
    (hn : ∀ u, F u []) (ha : ∀ u cs ds, F u cs → F (u ++ forestText cs) ds → F u (cs ++ ds))
    (hr : ∀ u ts, Stands u ts → test ts = true → F u (r ts).trees) (h : Stands u ts) :
    F u (loop test r ts).trees := by
  induction hn' : ts.length using Nat.strongRecOn generalizing u ts with
  | ind n ih =>
    rw [loop]
    split
    · next ht =>
      simp only
      split
      · next hp => exact ha _ _ _ (hr u ts h ht) (ih _ (hn' ▸ hp) (stands_rest hl h) rfl)
      · exact hr u ts h ht
    · exact hn u

structure Entries (k : Kind) (m col : Nat) (u : List Char) (cs : List Tree) : Prop where
  good : Good m u cs
  aligned : Each (Aligned k col) u cs
  pairs : Each PairLaid u cs

theorem Entries.append {k : Kind} {cs ds : List Tree} (hc : Entries k m col u cs)
    (hd : Entries k m col (u ++ forestText cs) ds) : Entries k m col u (cs ++ ds) :=
  ⟨hc.good.append hd.good, each_append.2 ⟨hc.aligned, hd.aligned⟩,
    each_append.2 ⟨hc.pairs, hd.pairs⟩⟩

theorem entries_trivia (k : Kind) (m col : Nat) (u : List Char) (ts : List Placed) :
    Entries k m col u (trivia ts).trees := by
  have hleaves {P : List Char → Tree → Prop} (hp : ∀ v t, P v (.leaf t)) :
      Each P u (trivia ts).trees :=
    (everyOf_leaves hp (flat_upTo _ ts) u).each.imp fun _ _ => Every.self
  exact ⟨(plain_trivia ts).good m u, hleaves fun _ _ h => by simp [isNodeOf] at h,
    hleaves fun _ _ h => by simp [isNodeOf] at h⟩

def ReadsEntry (k : Kind) (m col : Nat) (test : List Placed → Bool) (r : Rule) : Prop :=
  ∀ u ts, Stands u ts → column ts = col → test ts = true →
    ∃ cs, (r ts).trees = [.node k cs] ∧ Good m u [.node k cs] ∧ PairLaid u (.node k cs)

theorem entries_pass {k : Kind} {test : List Placed → Bool} (ht : ∀ ts, test ts = true → ts ≠ [])
    (hr : ReadsEntry k m col test r) (h : Stands u ts) (hf : entryFollows col test ts = true) :
    Entries k m col u (trivia.andThen r ts).trees := by
  have hp := stands_rest lossless_trivia h
  simp only [entryFollows, Bool.and_eq_true, decide_eq_true_eq] at hf
  obtain ⟨⟨hcol, hstart⟩, htest⟩ := hf
  rw [rest_trivia] at hp
  obtain ⟨cs, hcs, hgood, hpair⟩ := hr _ _ hp hcol htest
  refine (entries_trivia k m col u ts).append ?_
  rw [rest_trivia, hcs]
  refine ⟨hgood, ⟨fun _ => ⟨?_, ?_⟩, trivial⟩, hpair, trivial⟩
  · rw [column_of_stands hp (ht _ htest), hcol]
  · cases hts : pastTrivia ts with
    | nil => exact absurd hts (ht _ htest)
    | cons t us =>
      rw [hts] at hp hstart
      exact hp.behind.2.1 hstart

theorem collection_of_entries {k : Kind} {test : List Placed → Bool}
    (ht : ∀ ts, test ts = true → ts ≠ [])
    (hl : Lossless r) (hr : ReadsEntry k m col test r) (h : Stands u ts) (hc : column ts = col)
    (hts : test ts = true) :
    Good m u (r.andThen (loop (entryFollows col test) (trivia.andThen r)) ts).trees ∧
      Collection k u (r.andThen (loop (entryFollows col test) (trivia.andThen r)) ts).trees := by
  obtain ⟨cs, hcs, hgood, hpair⟩ := hr u ts h hc hts
  have he : Entries k m col (u ++ forestText (r ts).trees)
      (loop (entryFollows col test) (trivia.andThen r) (r ts).rest).trees :=
    loop_behind (lossless_trivia.andThen hl) (fun _ => ⟨good_nil, trivial, trivial⟩)
      (fun _ _ _ => Entries.append) (fun v us hv hf => entries_pass ht hr hv hf) (stands_rest hl h)
  have hcol : Text.column u = col := (column_of_stands h (ht ts hts)).trans hc
  rw [Rule.andThen]
  rw [hcs] at he ⊢
  rw [forestText_cons, forestText_nil, List.append_nil] at he
  refine ⟨hgood.append (by simpa using he.good), ?_⟩
  rw [List.singleton_append]
  exact ⟨hcol ▸ he.aligned, hpair, he.pairs⟩

end Forests

section Block

variable {node : Nat → Rule} (hl : ∀ min, Lossless (node min))
  (hn : ∀ min u ts, Stands u ts → Deep min ts → Good min u (node min ts).trees)
  {u : List Char} {ts : List Placed}
include hl hn

omit hl in
theorem good_deeper (col : Nat) (h : Stands u ts) :
    Good (col + 1) u (deeper node col ts).trees := by
  refine trees_when good_nil fun ht => ?_
  simp only [Bool.and_eq_true, decide_eq_true_eq] at ht
  refine good_andThen lossless_trivia h ((plain_trivia ts).good _ u)
    fun v hv => hn _ v _ hv fun _ => ?_
  rw [rest_trivia]
  exact ht.2

theorem good_itemValue {col : Nat} (h : Stands u ts) (hd : Deep (col + 1) ts) :
    Good (col + 1) u (itemValue node col ts).trees := by
  refine trees_branch (fun _ => good_deeper hn col h) fun _ => ?_
  refine good_andThen lossless_blank h ((plain_blank ts).good _ u) fun v hv => ?_
  refine good_andThen (hl _) hv (hn _ v _ hv (hd.rest lossless_blank h (not_mem_blank h.lexed)))
    fun w _ => ?_
  exact (plain_restOfLine _).good _ w

theorem good_marked {col : Nat} {k : Kind} (hk : k ≠ .eof ∧ k ≠ .newline ∧ k ≠ .quoted ∧ k ≠ .text)
    (h : Stands u ts) (hc : column ts = col) (hnext : next ts = k) :
    Good (col + 1) u (token.andThen (itemValue node col) ts).trees := by
  have hline := not_mem_token hk.2 h.lexed hnext
  refine good_andThen lossless_token h ((flat_token.plain ts).good _ u) fun v hv => ?_
  refine good_itemValue hl hn hv fun hr => ?_
  have hpos := length_token_pos h.lexed (ne_nil_of_next hnext hk.1)
  rw [column_rest lossless_token h hline hr, hc]
  omega

theorem readsEntry_item (col : Nat) : ReadsEntry .item (col + 1) col atDash (item node col) := by
  intro u ts h hc ht
  have hts := ne_nil_of_atDash ht
  have hg := good_marked hl hn (by decide) h hc (next_of_atIndicator ht)
  rw [← hc, ← column_of_stands h hts] at hg
  refine ⟨_, rfl, ?_, fun hk => by simp [isNodeOf] at hk⟩
  rw [← hc, ← column_of_stands h hts]
  exact hg.item

theorem laid_sequence (col : Nat) (h : Stands u ts) (hc : column ts = col) (ht : atDash ts = true) :
    ∃ cs, (sequence node col ts).trees = [.node .blockSequence cs] ∧ Collection .item u cs ∧
    Good (col + 1) u cs := by
  obtain ⟨hg, hcol⟩ := collection_of_entries (fun _ => ne_nil_of_atDash) (lossless_item hl col)
    (readsEntry_item hl hn col) h hc ht
  exact ⟨_, rfl, hcol, hg⟩

theorem good_sequence {m col : Nat} (hm : m ≤ col) (h : Stands u ts) (hc : column ts = col)
    (ht : atDash ts = true) :
    Good m u (sequence node col ts).trees := by
  obtain ⟨cs, hcs, hcol, hg⟩ := laid_sequence hl hn col h hc ht
  rw [hcs]
  refine ⟨⟨⟨hcol, hg.laid⟩, trivial⟩,
    ⟨⟨fun _ => ?_, (hg.mono (Nat.le_succ_of_le hm)).reaches⟩, trivial⟩⟩
  rw [column_of_stands h (ne_nil_of_atDash ht), hc]
  exact hm

theorem inPair_pairValueBelow (col : Nat) (h : Stands u ts) :
    InPair col u (pairValueBelow node col ts).trees := by
  refine trees_branch (fun ht => ?_) fun _ => (good_deeper hn col h).inPair
  simp only [atFlushSequence, Bool.and_eq_true, decide_eq_true_eq] at ht
  refine inPair_andThen lossless_trivia h ((plain_trivia ts).good _ u).inPair fun v hv => ?_
  rw [rest_trivia] at hv ⊢
  -- the one collection that may be level with its pair, so only its children are deeper
  obtain ⟨cs, hcs, hcol, hg⟩ := laid_sequence hl hn col hv ht.1 ht.2
  rw [hcs]
  refine ⟨⟨⟨hcol, hg.laid⟩, trivial⟩, .inr ⟨rfl, ?_, hg.reaches⟩, trivial⟩
  rw [column_of_stands hv (ne_nil_of_atDash ht.2), ht.1]

theorem inPair_pairValue (col : Nat) (h : Stands u ts) :
    InPair col u (pairValue node col ts).trees := by
  refine trees_branch (fun _ => inPair_pairValueBelow hl hn col h) fun _ => ?_
  refine inPair_andThen lossless_blank h ((plain_blank ts).good _ u).inPair fun v hv => ?_
  refine inPair_andThen lossless_properties hv ((plain_properties _).good _ v).inPair fun w hw => ?_
  refine trees_branch (fun _ => inPair_pairValueBelow hl hn col hw) fun _ => ?_
  exact (((plain_inlineValue _).andThen plain_restOfLine _).good _ w).inPair

theorem inPair_pairTail (col : Nat) (h : Stands u ts) :
    InPair col u (pairTail node col ts).trees := by
  have ht (test : List Placed → Bool) (v : List Char) (us : List Placed) :
      InPair col v (when test token us).trees :=
    ((flat_token.plain.when test us).good _ v).inPair
  refine inPair_andThen (lossless_token.when _) h (ht _ u ts) fun v hv => ?_
  exact inPair_andThen (lossless_token.when _) hv (ht _ v _)
    fun w hw => inPair_pairValue hl hn col hw

theorem inPair_pair {col : Nat} (h : Stands u ts) (hc : column ts = col) :
    ∃ cs, (pair node col ts).trees = [.node .pair cs] ∧ InPair col u cs := by
  refine ⟨_, rfl, trees_branch (fun hq => ?_) fun _ => ?_⟩
  · have hk :=
      (good_marked hl hn (by decide) h hc (next_of_atIndicator hq)).node (k := .key) (by decide)
    refine inPair_andThen (lossless_explicitKey hl col) h hk.inPair fun v hv => ?_
    refine trees_when (good_nil.inPair) fun _ => ?_
    exact inPair_andThen lossless_trivia hv ((plain_trivia _).good _ v).inPair
      fun w hw => inPair_pairTail hl hn col hw
  · refine inPair_andThen (lossless_key.when _) h ((plain_key.when _ ts).good _ u).inPair
      fun v hv => ?_
    exact inPair_pairTail hl hn col hv

theorem readsEntry_pair (col : Nat) : ReadsEntry .pair col col atEntry (pair node col) := by
  intro u ts h hc ht
  have hu := (column_of_stands h (ne_nil_of_atEntry ht)).trans hc
  obtain ⟨cs, hcs, hp⟩ := inPair_pair hl hn h hc
  subst hu
  exact ⟨cs, hcs, hp.pair, fun _ => hp.inner⟩

theorem good_mapping {m col : Nat} (hm : m ≤ col) (h : Stands u ts) (hc : column ts = col)
    (ht : atEntry ts = true) :
    Good m u (mapping node col ts).trees := by
  obtain ⟨hg, hcol⟩ := collection_of_entries (fun _ => ne_nil_of_atEntry) (lossless_pair hl col)
    (readsEntry_pair hl hn col) h hc ht
  refine ⟨⟨⟨hcol, hg.laid⟩, trivial⟩, ⟨⟨fun _ => ?_, (hg.mono hm).reaches⟩, trivial⟩⟩
  rw [column_of_stands h (ne_nil_of_atEntry ht), hc]
  exact hm

theorem good_bareNode {min : Nat} (h : Stands u ts) (hd : Deep min ts) :
    Good min u (bareNode node min ts).trees := by
  rw [bareNode]
  split
  · next ht => exact good_sequence hl hn (hd (ne_nil_of_atDash ht)) h rfl ht
  · split
    · exact (plain_blockLiteral min ts).good _ u
    · split
      · next ht => exact good_mapping hl hn (hd (ne_nil_of_atEntry ht)) h rfl ht
      · exact (plain_inlineValue min ts).good _ u

theorem good_blockNodeOf {min : Nat} (h : Stands u ts) (hd : Deep min ts) :
    Good min u (blockNodeOf node min ts).trees := by
  refine trees_branch (fun _ => ?_) fun _ => good_bareNode hl hn h hd
  refine good_andThen lossless_properties h ((plain_properties ts).good _ u) fun v hv => ?_
  refine trees_branch (fun _ => ?_) fun hline => ?_
  · refine trees_when good_nil fun ht => ?_
    simp only [Bool.and_eq_true, decide_eq_true_eq] at ht
    refine good_andThen lossless_trivia hv ((plain_trivia _).good _ v)
      fun w hw => hn _ w _ hw fun _ => ?_
    rw [rest_trivia]
    exact ht.2
  · refine good_bareNode hl hn hv ?_
    -- the line goes on after the properties, so they did not leave it
    rcases properties_line h.lexed with he | hp
    · rw [he] at hline
      cases hline
    · exact hd.rest lossless_properties h hp

end Block

theorem good_blockNode (min : Nat) {u : List Char} {ts : List Placed} (h : Stands u ts)
    (hd : Deep min ts) :
    Good min u (blockNode min ts).trees :=
  blockNode_induct (P := fun min ts p => ∀ u, Stands u ts → Deep min ts → Good min u p.trees)
    (fun _ => lossless_skip) (fun _ _ _ _ _ => good_nil)
    (fun _ hl hn _ _ _ h hd => good_blockNodeOf hl (fun min u ts => hn min ts u) h hd) min ts u h hd

theorem good_document {u : List Char} {ts : List Placed} (h : Stands u ts) :
    Good 0 u (document ts).trees := by
  refine Good.node ?_ (by decide)
  refine good_andThen (lossless_token.when _) h ((flat_token.plain.when _ ts).good _ u)
    fun v hv => ?_
  have hl : Lossless (trivia.andThen (blockNode 0)) :=
    lossless_trivia.andThen (lossless_blockNode 0)
  refine good_andThen (hl.loop _) hv ?_
    fun w _ => ((plain_trivia.andThen flat_token.plain).when _ _).good _ w
  refine loop_behind hl (fun _ => good_nil) (fun _ _ _ => Good.append) (fun w us hw _ => ?_) hv
  refine good_andThen lossless_trivia hw ((plain_trivia us).good _ w) fun x hx => ?_
  exact good_blockNode 0 hx fun _ => Nat.zero_le _

theorem good_documents {u : List Char} {ts : List Placed} (h : Stands u ts) :
    Good 0 u (documents ts).trees := by
  refine good_andThen lossless_trivia h ((plain_trivia ts).good _ u) fun v hv => ?_
  refine loop_behind (lossless_document.andThen lossless_trivia) (fun _ => good_nil)
    (fun _ _ _ => Good.append)
    (fun w us hw _ => ?_) hv
  exact good_andThen lossless_document hw (good_document hw) fun x _ => (plain_trivia _).good _ x

end Grammar

theorem holds_parse (s : List Char) : ∀ l ∈ (parse s).nodes, Layout.Holds s l := by
  intro l hl
  have hg := Grammar.good_documents (Placed.stands_place s)
  have he : (parse s).Every Layout.Laid [] := ⟨trivial, hg.laid⟩
  obtain ⟨v, hv, hlaid⟩ := he.preorderFrom [] l (List.mem_filter.1 hl).1
  have ht : (parse s).text = s := by rw [Tree.text, leaves_parse, Token.textOf_scan]
  rw [List.nil_append, ht] at hv
  exact Layout.holds_of_laid hv hlaid

/-- The entries of a block collection stand in one column and start their lines, and the block collections
inside of an entry are deeper than the entry. -/
theorem parse_keeps_layout (s : List Char) :
    (∀ l ∈ (parse s).nodes,
      (l.tree.isNodeOf [.blockSequence] = true → Layout.Column s .item l) ∧
      (l.tree.isNodeOf [.blockMapping] = true → Layout.Column s .pair l)) ∧
    ∀ l ∈ (parse s).nodes,
      (l.tree.isNodeOf [.item] = true → Layout.ItemInside s l) ∧
      (l.tree.isNodeOf [.blockMapping] = true → ∀ e ∈ l.entries .pair, Layout.PairInside s e) := by
  have h := holds_parse s
  exact ⟨fun l hl => ⟨(h l hl).sequence, (h l hl).mapping⟩,
    fun l hl => ⟨(h l hl).item, (h l hl).pair⟩⟩

example : ((parse ['k', ':', '\n', '-', ' ', 'a']).nodes.filter
      (·.tree.isNodeOf Layout.collections)).map
    (fun l => (l.kind, l.column ['k', ':', '\n', '-', ' ', 'a'])) =
      [(.blockMapping, 0), (.blockSequence, 0)] := by
  decide +kernel

end LosslessYaml
