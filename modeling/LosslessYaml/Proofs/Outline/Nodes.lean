import LosslessYaml.Proofs.Outline.Lines
import LosslessYaml.Proofs.Tree.Order

namespace LosslessYaml

namespace Tree

def nodesAt (pos : Nat) (address : List Nat) (i n : Nat) (ts : List Tree) : List Located :=
  (preorderOf address i n ts).filter (Located.isAt pos .before)

variable {pos : Nat} {address : List Nat} {i n : Nat} {ts us : List Tree}

theorem nodesAt_append : nodesAt pos address i n (ts ++ us) =
    nodesAt pos address i n ts ++ nodesAt pos address (i + ts.length) (n + byteLengthOf ts) us := by
  rw [nodesAt, preorderOf_append, List.filter_append]
  rfl

theorem nodesAt_cons (t : Tree) : nodesAt pos address i n (t :: ts) =
    nodesAt pos address i n [t] ++ nodesAt pos address (i + 1) (n + t.byteLength) ts := by
  rw [← List.singleton_append, nodesAt_append]
  rfl

theorem nodesAt_eq_nil (h : pos ≤ n ∨ n + byteLengthOf ts < pos) : nodesAt pos address i n ts = [] := by
  refine List.filter_eq_nil_iff.2 fun l hl => ?_
  have hw := within_preorderOf address i n ts l hl
  have hstart := hw.start
  have hstop := hw.stop
  simp only [Located.isAt, Side.holds, Bool.and_eq_true, decide_eq_true_eq, not_and]
  omega

theorem nodesAt_ahead (ts : List Tree) (h : pos ≤ n) : nodesAt pos address i n ts = [] := nodesAt_eq_nil (.inl h)

theorem nodesAt_behind (ts : List Tree) (h : n + byteLengthOf ts < pos) : nodesAt pos address i n ts = [] :=
  nodesAt_eq_nil (.inr h)

theorem isNode_of_mem_leaves {x : Located} (h : ∀ t ∈ ts, t.isNode = false)
    (hx : x ∈ preorderOf address i n ts) : x.tree.isNode = false := by
  induction ts generalizing i n with
  | nil => simp [preorderOf] at hx
  | cons t ts ih =>
    rw [preorderOf, List.mem_append] at hx
    have ht := h t List.mem_cons_self
    rcases hx with hx | hx
    · cases t with
      | leaf t =>
        rw [preorderFrom, List.mem_singleton] at hx
        rw [hx]
        rfl
      | node k cs => cases ht
    · exact ih (fun u hu => h u (List.mem_cons_of_mem t hu)) hx

theorem nodesAt_leaves (h : ∀ t ∈ ts, t.isNode = false) : nodesAt pos address i n ts = [] := by
  refine List.filter_eq_nil_iff.2 fun x hx => ?_
  rw [Located.isAt, isNode_of_mem_leaves h hx]
  exact Bool.false_ne_true

theorem mem_preorderOf_append {x : Located} : x ∈ preorderOf address i n (ts ++ us) ↔
    x ∈ preorderOf address i n ts ∨ x ∈ preorderOf address (i + ts.length) (n + byteLengthOf ts) us := by
  rw [preorderOf_append, List.mem_append]

theorem mem_preorderOf_node {k : Kind} {cs : List Tree} {x : Located} :
    x ∈ preorderOf address i n [.node k cs] ↔
      x = ⟨address ++ [i], n, .node k cs⟩ ∨ x ∈ preorderOf (address ++ [i]) 0 n cs := by
  rw [preorderOf, preorderFrom, preorderOf, List.append_nil, List.mem_cons]

theorem nodesAt_node {k : Kind} {cs : List Tree} (h : n < pos) (h' : pos ≤ n + byteLengthOf cs) :
    nodesAt pos address i n [.node k cs] =
      ⟨address ++ [i], n, .node k cs⟩ :: nodesAt pos (address ++ [i]) 0 n cs := by
  have hat : Located.isAt pos .before ⟨address ++ [i], n, .node k cs⟩ = true := by
    simp [Located.isAt, isNode, Side.holds, Located.stop, byteLength, h, h']
  rw [nodesAt, preorderOf, preorderFrom, preorderOf, List.append_nil, List.filter_cons_of_pos hat]
  rfl

theorem byteLengthOf_forestText (ts : List Tree) : byteLengthOf ts = Text.byteLength (forestText ts) :=
  byteLengthOf_eq ts

end Tree

namespace Outline

open LosslessYaml.Tree Text
open Writing (Word Shape Head Break spaces space indentTrees breakTrees anchorText anchorTrees)

section Parts

variable {k : Shape} {c : Nat}

theorem byteLengthOf_head (h : Head k) : byteLengthOf h.trees = byteLength h.text := by
  rw [byteLengthOf_forestText, forestText_head]

theorem byteLengthOf_slot (s : Slot k c) : byteLengthOf s.trees = byteLength s.text := by
  rw [byteLengthOf_forestText, forestText_slot]

theorem byteLengthOf_block (b : Block k c) : byteLengthOf b.trees = byteLength b.text := by
  rw [byteLengthOf_forestText, forestText_block]

theorem byteLengthOf_entry (h : Head k) (s : Slot k c) :
    byteLengthOf (h.trees ++ s.trees) = byteLength h.text + byteLength s.text := by
  rw [byteLengthOf_append, byteLengthOf_head, byteLengthOf_slot]

theorem byteLengthOf_anchorTrees (anchor : Option Word) :
    byteLengthOf (anchorTrees anchor) = byteLength (anchorText anchor) := by
  rw [byteLengthOf_forestText, forestText_anchorTrees]

theorem byteLengthOf_breakTrees (e : Break) (d : Nat) :
    byteLengthOf (breakTrees e d) = byteLength e.text + byteLength (spaces d) := by
  rw [byteLengthOf_forestText, forestText_breakTrees, byteLength_append]

theorem byteLengthOf_contentTrees (d : Nat) (w : Word) (ls : List (Break × Word)) :
    byteLengthOf (contentTrees d w ls) =
      byteLength (spaces d) + (byteLength w.chars + byteLength (linesText d ls)) := by
  rw [byteLengthOf_forestText, forestText_contentTrees, byteLength_append, byteLength_append]

theorem byteLengthOf_node (k : Kind) (ts : List Tree) : byteLengthOf [.node k ts] = byteLengthOf ts := rfl

theorem byteLength_literalTree (d : Nat) (e : Break) (w : Word) (ls : List (Break × Word)) :
    (literalTree d e w ls).byteLength = 1 + byteLength (linesText d ((e, w) :: ls)) := by
  rw [byteLength_eq, text_literalTree, byteLength_cons]
  rfl

theorem byteLength_head_pos (h : Head k) : 0 < byteLength h.text := by
  cases h with
  | key w =>
    rw [Head.text, byteLength_append]
    exact Nat.add_pos_right _ (by decide)
  | dash => decide

theorem byteLength_word_pos (w : Word) : 0 < byteLength w.chars := by
  cases h : w.chars with
  | nil => exact absurd h w.ne_nil
  | cons c cs =>
    rw [byteLength_cons]
    exact Nat.add_pos_left c.utf8Size_pos _

theorem stop_header (n : Nat) (pre : List Char) (anchor : Option Word) :
    Row.stop ⟨n, pre ++ (anchorText anchor ++ [' ', '|']), .header⟩ =
      n + byteLength pre + byteLength (anchorText anchor) + 1 + 1 := by
  have hpipe : byteLength [' ', '|'] = 1 + 1 := rfl
  simp only [Row.stop, byteLength_append, hpipe]
  omega

theorem isNode_space : ∀ t ∈ [space], t.isNode = false := by simp [space, isNode]

theorem isNode_breakTrees (e : Break) (d : Nat) : ∀ t ∈ breakTrees e d, t.isNode = false := by
  intro t ht
  cases d with
  | zero =>
    rw [List.mem_singleton.1 ht]
    rfl
  | succ d =>
    simp only [breakTrees, indentTrees, Nat.succ_ne_zero, if_false, List.mem_cons, List.not_mem_nil,
      or_false] at ht
    rcases ht with rfl | rfl <;> rfl

theorem isNode_contentTrees {d : Nat} {w : Word} {ls : List (Break × Word)} :
    ∀ t ∈ contentTrees d w ls, t.isNode = false := by
  have hindent : ∀ t ∈ indentTrees d, t.isNode = false := fun t ht =>
    isNode_breakTrees .lf d t (List.mem_cons_of_mem _ ht)
  induction ls generalizing w with
  | nil =>
    intro t ht
    rcases List.mem_append.1 ht with ht | ht
    · exact hindent t ht
    · rw [List.mem_singleton.1 ht]
      rfl
  | cons l ls ih =>
    intro t ht
    rcases List.mem_append.1 ht with ht | ht
    · exact hindent t ht
    · rcases List.mem_cons.1 ht with rfl | ht
      · rfl
      · rcases List.mem_cons.1 ht with rfl | ht
        · rfl
        · exact ih t ht

theorem isNode_endingTrees (e : Option Break) : ∀ t ∈ endingTrees e, t.isNode = false := by
  cases e <;> simp [endingTrees, isNode]

end Parts

structure Spans (rs : List Row) (n : Nat) (pre : List Char) (low high : Nat) : Prop where
  first : ∃ r ∈ rs, r.start = n ∧ pre <+: r.text
  last : ∃ r ∈ rs, r.stop = high
  bounds : ∀ r ∈ rs, low ≤ r.stop ∧ r.stop ≤ high

theorem spans_row (n : Nat) (pre q : List Char) (role : Role) :
    Spans [⟨n, pre ++ q, role⟩] n pre (n + byteLength pre) (n + byteLength (pre ++ q)) := by
  refine ⟨⟨_, List.mem_singleton_self _, rfl, List.prefix_append _ _⟩, ⟨_, List.mem_singleton_self _, rfl⟩, ?_⟩
  intro r hr
  rw [List.mem_singleton.1 hr]
  simp only [Row.stop, byteLength_append]
  omega

theorem Spans.append {rs rs' : List Row} {n n' low low' high high' : Nat} {pre pre' : List Char}
    (h : Spans rs n pre low high) (h' : Spans rs' n' pre' low' high') (hl : high ≤ low') :
    Spans (rs ++ rs') n pre low high' := by
  obtain ⟨r, hr, hn, hp⟩ := h.first
  obtain ⟨l, hl', hh⟩ := h'.last
  refine ⟨⟨r, List.mem_append_left _ hr, hn, hp⟩, ⟨l, List.mem_append_right _ hl', hh⟩, fun x hx => ?_⟩
  have hr := h.bounds r hr
  have hl' := h'.bounds l hl'
  rcases List.mem_append.1 hx with hx | hx
  · have := h.bounds x hx
    omega
  · have := h'.bounds x hx
    omega

theorem Spans.mono {rs : List Row} {n low low' high : Nat} {pre pre' : List Char} (h : Spans rs n pre' low' high)
    (hp : pre <+: pre') (hl : low ≤ low') : Spans rs n pre low high := by
  obtain ⟨r, hr, hn, hp'⟩ := h.first
  refine ⟨⟨r, hr, hn, hp.trans hp'⟩, h.last, fun x hx => ?_⟩
  have := h.bounds x hx
  omega

theorem spans_content (d : Nat) (r : Row) (ls : List (Break × Word)) :
    Spans (r :: contentRows d r.stop ls) r.start r.text r.stop (r.stop + byteLength (linesText d ls)) := by
  induction ls generalizing r with
  | nil =>
    have h := spans_row r.start r.text [] r.role
    rw [List.append_nil] at h
    exact h
  | cons l ls ih =>
    have hl := ih ⟨r.stop + byteLength l.1.text, spaces d ++ l.2.chars, .content⟩
    have hr := spans_row r.start r.text [] r.role
    rw [List.append_nil] at hr
    have hhigh : (⟨r.stop + byteLength l.1.text, spaces d ++ l.2.chars, .content⟩ : Row).stop +
        byteLength (linesText d ls) = r.stop + byteLength (linesText d (l :: ls)) := by
      simp only [Row.stop, linesText, byteLength_append]
      omega
    rw [hhigh] at hl
    exact hr.append hl (by simp only [Row.stop]; omega)

mutual

theorem Block.spans {k : Shape} {c : Nat} (n : Nat) (pre : List Char) :
    ∀ b : Block k c, Spans (b.rows n pre) n pre (n + byteLength pre + 1) (n + byteLength (pre ++ b.text))
  | .last h s => by
    have hs := Slot.spans n (pre ++ h.text) s
    have hpos := byteLength_head_pos h
    rw [List.append_assoc] at hs
    refine hs.mono (List.prefix_append _ _) ?_
    rw [byteLength_append]
    omega
  | .more h s e rest => by
    have hs := Slot.spans n (pre ++ h.text) s
    have hrest := Block.spans (n + byteLength (pre ++ h.text ++ s.text ++ e.text)) (spaces c) rest
    have hpos := byteLength_head_pos h
    have hboth := hs.append hrest (by simp only [byteLength_append]; omega)
    have hhigh : n + byteLength (pre ++ h.text ++ s.text ++ e.text) + byteLength (spaces c ++ rest.text) =
        n + byteLength (pre ++ Writing.Block.text (.more h s e rest : Block k c)) := by
      simp only [Writing.Block.text, byteLength_append]
      omega
    rw [hhigh] at hboth
    refine hboth.mono (List.prefix_append _ _) ?_
    rw [byteLength_append]
    omega

theorem Slot.spans {k : Shape} {c : Nat} (n : Nat) (pre : List Char) :
    ∀ s : Slot k c, Spans (s.rows n pre) n pre (n + byteLength pre) (n + byteLength (pre ++ s.text))
  | .inline anchor (.word w) => spans_row n pre _ _
  | .inline anchor (.literal (d := d) _ e w ls) => by
    have h := spans_content d ⟨n, pre ++ (anchorText anchor ++ [' ', '|']), .header⟩ ((e, w) :: ls)
    have hhigh : (⟨n, pre ++ (anchorText anchor ++ [' ', '|']), .header⟩ : Row).stop +
        byteLength (linesText d ((e, w) :: ls)) =
        n + byteLength (pre ++ (anchorText anchor ++ ' ' :: '|' :: linesText d ((e, w) :: ls))) := by
      simp only [Row.stop, byteLength_append, byteLength_cons, byteLength_nil]
      omega
    rw [hhigh] at h
    refine h.mono (List.prefix_append _ _) ?_
    simp only [Row.stop, byteLength_append]
    omega
  | .nested (d := d) anchor e _ b => by
    have hr := spans_row n pre (anchorText anchor) (.entry c)
    have hb := Block.spans (n + byteLength (pre ++ anchorText anchor) + byteLength e.text) (spaces d) b
    have h := hr.append hb (by omega)
    have hhigh : n + byteLength (pre ++ anchorText anchor) + byteLength e.text + byteLength (spaces d ++ b.text) =
        n + byteLength (pre ++ (anchorText anchor ++ (e.text ++ (spaces d ++ b.text)))) := by
      simp only [byteLength_append]
      omega
    rw [hhigh] at h
    exact h
  | .compact b => by
    have h := Block.spans n (pre ++ [' ']) b
    rw [List.append_assoc] at h
    refine h.mono (List.prefix_append _ _) ?_
    rw [byteLength_append]
    omega

end

/-- Each node of a forest stays on one row, or ends where one ends. -/
def Straight (rs : List Row) (n : Nat) (ts : List Tree) : Prop :=
  ∀ address i, ∀ x ∈ preorderOf address i n ts, x.tree.isNode = true →
    ∃ r ∈ rs, x.stop ≤ r.stop ∧ (r.start ≤ x.start ∨ x.stop = r.stop)

namespace Straight

variable {rs : List Row} {n m : Nat} {ts us : List Tree}

theorem append (ht : Straight rs n ts) (hu : Straight rs m us) (hm : n + byteLengthOf ts = m) :
    Straight rs n (ts ++ us) := by
  intro address i x hx
  subst hm
  rcases mem_preorderOf_append.1 hx with hx | hx
  · exact ht _ _ x hx
  · exact hu _ _ x hx

theorem leaves (h : ∀ t ∈ ts, t.isNode = false) : Straight rs n ts := by
  intro address i x hx hn
  rw [isNode_of_mem_leaves h hx] at hn
  cases hn

theorem onRow {r : Row} (hr : r ∈ rs) (hs : r.start ≤ n) (he : n + byteLengthOf ts ≤ r.stop) :
    Straight rs n ts := by
  intro address i x hx _
  have hw := within_preorderOf address i n ts x hx
  exact ⟨r, hr, Nat.le_trans hw.stop he, .inl (Nat.le_trans hs hw.start)⟩

theorem node {k : Kind} {r : Row} (hr : r ∈ rs) (he : n + byteLengthOf ts = r.stop) (h : Straight rs n ts) :
    Straight rs n [.node k ts] := by
  intro address i x hx hn
  rcases mem_preorderOf_node.1 hx with rfl | hx
  · exact ⟨r, hr, Nat.le_of_eq he, .inr he⟩
  · exact h _ _ x hx hn

end Straight

section Straight

variable {rs : List Row} {n : Nat} {pre : List Char} {k : Shape} {c : Nat}

theorem straight_entry (h : Head k) {s : Slot k c} (hrs : ∀ r ∈ s.rows n (pre ++ h.text), r ∈ rs)
    (hs : Straight rs (n + byteLength (pre ++ h.text)) s.trees) :
    Straight rs (n + byteLength pre) [.node k.entry (h.trees ++ s.trees)] := by
  have hspans := s.spans n (pre ++ h.text)
  obtain ⟨r, hr, hstart, q, hq⟩ := hspans.first
  obtain ⟨l, hl, hstop⟩ := hspans.last
  simp only [byteLength_append] at hstop hs
  have hhead : Straight rs (n + byteLength pre) h.trees := by
    refine .onRow (hrs r hr) (by omega) ?_
    rw [byteLengthOf_head, Row.stop, hstart, ← hq]
    simp only [byteLength_append]
    omega
  refine .node (hrs l hl) ?_ (hhead.append hs ?_)
  · rw [hstop, byteLengthOf_entry]
    omega
  · rw [byteLengthOf_head, Nat.add_assoc]

theorem straight_collection {b : Block k c} (hrs : ∀ r ∈ b.rows n pre, r ∈ rs)
    (hb : Straight rs (n + byteLength pre) b.trees) :
    Straight rs (n + byteLength pre) [.node k.collection b.trees] := by
  obtain ⟨l, hl, hstop⟩ := (b.spans n pre).last
  refine .node (hrs l hl) ?_ hb
  rw [hstop, byteLengthOf_block, byteLength_append, Nat.add_assoc]

theorem straight_literal {d : Nat} {e : Break} {w : Word} {ls : List (Break × Word)} {r l : Row} (hr : r ∈ rs)
    (hstart : r.start ≤ n) (hpipe : n + 1 ≤ r.stop) (hl : l ∈ rs)
    (hstop : n + (literalTree d e w ls).byteLength = l.stop) : Straight rs n [literalTree d e w ls] := by
  have hheader : Straight rs n [.node .blockLiteralHeader [.leaf ⟨.pipe, ['|']⟩]] := .onRow hr hstart hpipe
  have hfeed : Straight rs (n + 1) [.leaf ⟨.newline, e.text⟩] := .leaves (by simp [isNode])
  have hcontent : Straight rs (n + 1 + byteLength e.text) [.node .blockLiteralContent (contentTrees d w ls)] := by
    refine .node hl ?_ (.leaves isNode_contentTrees)
    rw [← hstop, byteLength_literalTree, byteLengthOf_contentTrees]
    simp only [linesText, byteLength_append]
    omega
  exact .node hl hstop (hheader.append (hfeed.append hcontent rfl) rfl)

mutual

theorem Block.straight {k : Shape} {c : Nat} (n : Nat) (pre : List Char) :
    ∀ b : Block k c, (∀ r ∈ b.rows n pre, r ∈ rs) → Straight rs (n + byteLength pre) b.trees
  | .last h s, hrs => straight_entry h hrs (Slot.straight n (pre ++ h.text) s hrs)
  | .more h s e rest, hrs => by
    have hrs₁ : ∀ r ∈ Slot.rows n (pre ++ h.text) s, r ∈ rs := fun r hr => hrs r (List.mem_append_left _ hr)
    have hrs₂ : ∀ r ∈ Block.rows (n + byteLength (pre ++ h.text ++ s.text ++ e.text)) (spaces c) rest, r ∈ rs :=
      fun r hr => hrs r (List.mem_append_right _ hr)
    have hentry := straight_entry h hrs₁ (Slot.straight n (pre ++ h.text) s hrs₁)
    have hrest := Block.straight _ (spaces c) rest hrs₂
    refine hentry.append (.append (.leaves (isNode_breakTrees e c)) hrest ?_) rfl
    simp only [byteLengthOf_node, byteLengthOf_entry, byteLengthOf_breakTrees, byteLength_append]
    omega

theorem Slot.straight {k : Shape} {c : Nat} (n : Nat) (pre : List Char) :
    ∀ s : Slot k c, (∀ r ∈ s.rows n pre, r ∈ rs) → Straight rs (n + byteLength pre) s.trees
  | .inline anchor (.word w), hrs => by
    refine .onRow (hrs _ (List.mem_singleton_self _)) (Nat.le_add_right _ _) ?_
    rw [byteLengthOf_slot, Row.stop, byteLength_append]
    exact Nat.le_of_eq (Nat.add_assoc _ _ _)
  | .inline anchor (.literal (d := d) h e w ls), hrs => by
    have hheader := hrs _ List.mem_cons_self
    have hpipe := stop_header n pre anchor
    obtain ⟨l, hl, hstop⟩ := (Slot.spans n pre (.inline anchor (.literal h e w ls) : Slot k c)).last
    have hanchor : Straight rs (n + byteLength pre) (anchorTrees anchor) := by
      refine .onRow hheader (Nat.le_add_right _ _) ?_
      rw [byteLengthOf_anchorTrees]
      omega
    have hlit : Straight rs (n + byteLength pre + byteLength (anchorText anchor) + 1) [literalTree d e w ls] := by
      refine straight_literal hheader (by simp only; omega) (by omega) (hrs l hl) ?_
      rw [hstop, byteLength_literalTree]
      simp only [Writing.Slot.text, Inline.text, byteLength_append, byteLength_cons, (by decide : ' '.utf8Size = 1),
        (by decide : '|'.utf8Size = 1)]
      omega
    refine hanchor.append (.append (.leaves isNode_space) hlit ?_) rfl
    rw [byteLengthOf_anchorTrees]
    rfl
  | .nested (d := d) anchor e _ b, hrs => by
    have hrow := hrs _ List.mem_cons_self
    have hrs : ∀ r ∈ Block.rows (n + byteLength (pre ++ anchorText anchor) + byteLength e.text) (spaces d) b, r ∈ rs :=
      fun r hr => hrs r (List.mem_cons_of_mem _ hr)
    have hanchor : Straight rs (n + byteLength pre) (anchorTrees anchor) := by
      refine .onRow hrow (Nat.le_add_right _ _) ?_
      rw [byteLengthOf_anchorTrees, Row.stop, byteLength_append]
      exact Nat.le_of_eq (Nat.add_assoc _ _ _)
    have hcoll := straight_collection hrs (Block.straight _ (spaces d) b hrs)
    refine hanchor.append (.append (.leaves (isNode_breakTrees e d)) hcoll ?_) rfl
    simp only [byteLengthOf_anchorTrees, byteLengthOf_breakTrees, byteLength_append]
    omega
  | .compact b, hrs => by
    -- the collection shares its first row with the item, so its rows are the item's
    have hspace : Straight rs (n + byteLength pre) [space] := .leaves isNode_space
    refine hspace.append (straight_collection hrs (Block.straight n (pre ++ [' ']) b hrs)) ?_
    rw [byteLength_append, ← Nat.add_assoc]
    rfl

end

end Straight

theorem straight_nodes (o : Outline) {x : Located} (hx : x ∈ o.tree.nodes) :
    x = o.tree.located ∨ ∃ r ∈ o.rows, x.stop ≤ r.stop ∧ (r.start ≤ x.start ∨ x.stop = r.stop) := by
  have hrows : ∀ r ∈ o.root.rows 0 [], r ∈ o.rows := fun _ hr => hr
  obtain ⟨l, hl, hstop⟩ := (o.root.spans 0 []).last
  have hroot := straight_collection hrows (o.root.straight 0 [] hrows)
  have hdocument : Straight o.rows 0 [.node .document [.node o.shape.collection o.root.trees]] := by
    refine hroot.node (hrows l hl) ?_
    rw [hstop, byteLengthOf_node, byteLengthOf_block]
    rfl
  have hall := hdocument.append (.leaves (isNode_endingTrees o.ending)) rfl
  obtain ⟨hx, hn⟩ := List.mem_filter.1 hx
  rw [preorder, tree, preorderFrom, List.mem_cons] at hx
  exact hx.imp_right fun hx => hall _ _ x hx hn

end Outline

end LosslessYaml
