import LosslessYaml.Proofs.Outline.Nodes

/-! At the end of a row many nodes end at once. Of those that have something to say about the line below, the
innermost one is the block scalar that the row is a line of, or else the collection of the last entry that starts
on the row. -/

namespace LosslessYaml

namespace Outline

open LosslessYaml.Tree Text
open Writing (Word Shape Head Break spaces space indentTrees breakTrees anchorText anchorTrees)

def silentKinds : List Kind := [.anchor, .item, .pair, .blockLiteralHeader]

namespace Row

/-- A node that says nothing at the end of a row: its kind is silent, or it is a word that ends there and has
something else in front of it. -/
def Ignores (r : Row) (z : Located) : Prop :=
  z.kind ∈ silentKinds ∨ z.kind = .literal ∧ z.stop = r.stop ∧
    ∃ p q, r.text = p ++ q ∧ z.start = r.start + byteLength p ∧ ¬∀ c ∈ p, c = ' '

def Tells (rs : List Row) (r : Row) (x : Located) : Prop :=
  match r.role with
  | .header => x.kind = .blockLiteral ∧ r.start ≤ x.start ∧ x.start < r.stop
  | .content => x.kind = .blockLiteralContent ∧ x.tree.isEmpty = false ∧
      ∃ r' ∈ rs, x.start = r'.start ∧ r'.indent = r.indent
  | .entry c => (x.kind = .blockSequence ∨ x.kind = .blockMapping) ∧
      ∃ r' ∈ rs, ∃ p q, r'.text = p ++ q ∧ x.start = r'.start + byteLength p ∧ p.length = c

/-- Of nodes from the outside in, none of them a flow collection, the innermost one that is not ignored tells. -/
def Told (rs : List Row) (r : Row) (xs : List Located) : Prop :=
  ∃ ys x zs, xs = ys ++ x :: zs ∧ (∀ y ∈ ys, y.kind.isFlowCollection = false) ∧ r.Tells rs x ∧
    ∀ z ∈ zs, r.Ignores z

/-- Nodes of an entry in column `c`: they tell, or they leave it to the collection that the entry belongs to. -/
def Heard (rs : List Row) (c : Nat) (r : Row) (xs : List Located) : Prop :=
  r.role = .entry c ∧ (∀ z ∈ xs, r.Ignores z) ∨ r.Told rs xs

variable {rs : List Row} {c : Nat} {r : Row} {xs : List Located} {x : Located}

theorem Ignores.isFlowCollection (h : r.Ignores x) : x.kind.isFlowCollection = false := by
  rcases h with h | ⟨h, -⟩
  · exact (by decide : ∀ k ∈ silentKinds, k.isFlowCollection = false) _ h
  · rw [h]
    rfl

theorem Tells.isFlowCollection (h : r.Tells rs x) : x.kind.isFlowCollection = false := by
  rw [Tells] at h
  split at h
  · rw [h.1]
    rfl
  · rw [h.1]
    rfl
  · rcases h.1 with h | h <;> rw [h] <;> rfl

theorem Told.isFlowCollection (h : r.Told rs xs) : ∀ x ∈ xs, x.kind.isFlowCollection = false := by
  obtain ⟨ys, x, zs, rfl, hy, hx, hz⟩ := h
  refine List.forall_mem_append.2 ⟨hy, List.forall_mem_cons.2 ⟨hx.isFlowCollection, fun z hz' => ?_⟩⟩
  exact (hz z hz').isFlowCollection

theorem Told.cons (h : r.Told rs xs) (hx : x.kind.isFlowCollection = false) : r.Told rs (x :: xs) := by
  obtain ⟨ys, y, zs, rfl, hy, hyz⟩ := h
  exact ⟨x :: ys, y, zs, rfl, List.forall_mem_cons.2 ⟨hx, hy⟩, hyz⟩

theorem Heard.cons (h : r.Heard rs c xs) (hx : r.Ignores x) : r.Heard rs c (x :: xs) := by
  rcases h with ⟨hr, hz⟩ | ht
  · exact .inl ⟨hr, List.forall_mem_cons.2 ⟨hx, hz⟩⟩
  · exact .inr (ht.cons hx.isFlowCollection)

end Row

section NodesAt

variable {pos : Nat} {address : List Nat} {i m : Nat}

theorem nodesAt_head {k : Shape} (h : Head k) (hp : m + byteLength h.text ≤ pos) :
    nodesAt pos address i m h.trees = [] := by
  cases h with
  | key w =>
    have hkey : m + byteLengthOf [.node .key [w.tree]] < pos := by
      have hcolon : byteLength [':'] = 1 := rfl
      have hword : byteLengthOf [.node .key [w.tree]] = byteLength w.chars := rfl
      rw [Head.text, byteLength_append] at hp
      omega
    have hcolon : ∀ t ∈ [Tree.leaf ⟨.colon, [':']⟩], t.isNode = false := by simp [isNode]
    rw [Head.trees, nodesAt_cons, nodesAt_behind _ hkey, nodesAt_leaves hcolon, List.append_nil]
  | dash => exact nodesAt_leaves (by simp [Head.trees, isNode])

theorem nodesAt_space : nodesAt pos address i m [space] = [] := nodesAt_leaves isNode_space

theorem nodesAt_break (e : Break) (d : Nat) : nodesAt pos address i m (breakTrees e d) = [] :=
  nodesAt_leaves (isNode_breakTrees e d)

theorem nodesAt_anchor (anchor : Option Word) (hp : m + byteLength (anchorText anchor) < pos) :
    nodesAt pos address i m (anchorTrees anchor) = [] :=
  nodesAt_behind _ (by rwa [byteLengthOf_anchorTrees])

theorem kind_of_mem_anchor (anchor : Option Word) {x : Located}
    (hx : x ∈ nodesAt pos address i m (anchorTrees anchor)) : x.kind = .anchor := by
  obtain ⟨hx, hat⟩ := List.mem_filter.1 hx
  cases anchor with
  | none => simp [anchorTrees, preorderOf] at hx
  | some w =>
    simp only [anchorTrees, space, Word.anchor, preorderOf, preorderFrom, List.cons_append, List.nil_append, List.mem_cons,
      List.not_mem_nil, or_false] at hx
    rcases hx with rfl | rfl | rfl
    · simp [Located.isAt, isNode] at hat
    · rfl
    · simp [Located.isAt, isNode] at hat

end NodesAt

theorem indent_word (n d : Nat) (w : Word) (role : Role) : (⟨n, spaces d ++ w.chars, role⟩ : Row).indent = d := by
  have hw : w.chars.takeWhile (· = ' ') = [] := by
    cases h : w.chars with
    | nil => rfl
    | cons c cs =>
      have hc := w.alphanum c (by simp [h])
      refine List.takeWhile_cons_of_neg ?_
      rw [decide_eq_true_eq]
      rintro rfl
      exact absurd hc (by decide)
  have hs : ∀ c ∈ spaces d, decide (c = ' ') = true := fun c hc => decide_eq_true (List.eq_of_mem_replicate hc)
  rw [Row.indent, List.takeWhile_append_of_pos hs, hw, List.append_nil, spaces, List.length_replicate]

theorem mem_contentRows {d n : Nat} {ls : List (Break × Word)} {r : Row} (hr : r ∈ contentRows d n ls) :
    r.role = .content ∧ r.indent = d := by
  induction ls generalizing n with
  | nil => cases hr
  | cons l ls ih =>
    rcases List.mem_cons.1 hr with rfl | hr
    · exact ⟨rfl, indent_word _ d l.2 _⟩
    · exact ih hr

theorem head_not_blank (pre : List Char) {k : Shape} (h : Head k) : ¬∀ c ∈ pre ++ h.text, c = ' ' := by
  intro hb
  cases h with
  | key w => exact absurd (hb ':' (by simp [Head.text])) (by decide)
  | dash => exact absurd (hb '-' (by simp [Head.text])) (by decide)

theorem length_dash {pre : List Char} {c : Nat} (hp : pre.length = c) {k : Shape} (h : Head k)
    (hk : k = .sequence) : (pre ++ h.text).length = c + 1 := by
  cases h with
  | key w => cases hk
  | dash => rw [Head.text, List.length_append, hp, List.length_singleton]

theorem length_compact {pre : List Char} {c : Nat} (hp : pre.length = c + 1) : (pre ++ [' ']).length = c + 2 := by
  rw [List.length_append, hp, List.length_singleton]

theorem length_spaces (c : Nat) : (spaces c).length = c := List.length_replicate

theorem entry_mem_silentKinds (k : Shape) : k.entry ∈ silentKinds := by
  cases k <;> decide

section Heard

variable {rs : List Row} {n : Nat} {pre : List Char} {k j : Shape} {c d : Nat} {r : Row} {address : List Nat}
  {i m : Nat}

theorem heard_entry (h : Head k) {s : Slot k c} (hlow : m + byteLength h.text ≤ r.stop)
    (hhigh : r.stop ≤ m + byteLength h.text + byteLength s.text)
    (hs : ∀ address i, r.Heard rs c (nodesAt r.stop address i (m + byteLength h.text) s.trees)) :
    r.Heard rs c (nodesAt r.stop address i m [.node k.entry (h.trees ++ s.trees)]) := by
  have hpos := byteLength_head_pos h
  have hlen := byteLengthOf_entry h s
  rw [nodesAt_node (by omega) (by omega), nodesAt_append, nodesAt_head h hlow, List.nil_append, byteLengthOf_head]
  exact (hs _ _).cons (.inl (entry_mem_silentKinds k))

theorem told_collection (address : List Nat) (i : Nat) {b : Block k c} (hrs : ∀ r ∈ b.rows n pre, r ∈ rs)
    (hp : pre.length = c) (hr : r ∈ b.rows n pre)
    (hb : ∀ address i, r.Heard rs c (nodesAt r.stop address i (n + byteLength pre) b.trees)) :
    r.Told rs (nodesAt r.stop address i (n + byteLength pre) [.node k.collection b.trees]) := by
  have hspans := b.spans n pre
  obtain ⟨hlow, hhigh⟩ := hspans.bounds r hr
  rw [byteLength_append, ← byteLengthOf_block] at hhigh
  rw [nodesAt_node (by omega) (by omega)]
  rcases hb (address ++ [i]) 0 with ⟨hrole, hz⟩ | ht
  · refine ⟨[], _, _, rfl, List.forall_mem_nil _, ?_, hz⟩
    obtain ⟨r', hr', hstart, q, hq⟩ := hspans.first
    rw [Row.Tells, hrole]
    refine ⟨?_, r', hrs r' hr', pre, q, hq.symm, by rw [hstart], hp⟩
    cases k with
    | mapping => exact .inr rfl
    | sequence => exact .inl rfl
  · exact ht.cons (by cases k <;> rfl)

theorem heard_more (h : Head k) {s : Slot k c} (e : Break) {rest : Block k c}
    (hr : r ∈ Block.rows n pre (.more h s e rest : Block k c))
    (hs : r ∈ s.rows n (pre ++ h.text) → ∀ address i,
      r.Heard rs c (nodesAt r.stop address i (n + byteLength (pre ++ h.text)) s.trees))
    (hrest : r ∈ rest.rows (n + byteLength (pre ++ h.text ++ s.text ++ e.text)) (spaces c) → ∀ address i,
      r.Heard rs c (nodesAt r.stop address i
        (n + byteLength (pre ++ h.text ++ s.text ++ e.text) + byteLength (spaces c)) rest.trees)) :
    r.Heard rs c (nodesAt r.stop address i (n + byteLength pre) (Writing.Block.trees (.more h s e rest : Block k c))) := by
  have hlen := byteLengthOf_entry h s
  have hnode := byteLengthOf_node k.entry (h.trees ++ s.trees)
  have hbreak := byteLengthOf_breakTrees e c
  rw [Writing.Block.trees, ← List.singleton_append, nodesAt_append, nodesAt_append, nodesAt_break, List.nil_append]
  -- the rows of the entry end in front of the rest, and the rows of the rest behind the entry
  rcases List.mem_append.1 hr with hr | hr
  · obtain ⟨hlow, hhigh⟩ := (s.spans n (pre ++ h.text)).bounds r hr
    have hs := hs hr
    simp only [byteLength_append, ← Nat.add_assoc] at hs hlow hhigh
    rw [nodesAt_ahead rest.trees (by omega), List.append_nil]
    exact heard_entry h hlow hhigh hs
  · obtain ⟨hlow, -⟩ := (rest.spans _ (spaces c)).bounds r hr
    have hoff : n + byteLength (pre ++ h.text ++ s.text ++ e.text) + byteLength (spaces c) =
        n + byteLength pre + byteLengthOf [.node k.entry (h.trees ++ s.trees)] + byteLengthOf (breakTrees e c) := by
      simp only [byteLength_append]
      omega
    have hrest := hrest hr
    rw [hoff] at hrest hlow
    rw [nodesAt_behind [_] (by omega), List.nil_append]
    exact hrest _ _

theorem heard_word (anchor : Option Word) (w : Word) (hp : ¬∀ c ∈ pre, c = ' ')
    (hr : r = ⟨n, pre ++ (anchorText anchor ++ ' ' :: w.chars), .entry c⟩) :
    r.Heard rs c (nodesAt r.stop address i (n + byteLength pre) (Writing.Slot.trees (.inline anchor (.word w) : Slot k c))) := by
  have hspace : ' '.utf8Size = 1 := by decide
  have hw := byteLength_word_pos w
  have hstop : r.stop = n + byteLength pre + byteLength (anchorText anchor) + 1 + byteLength w.chars := by
    rw [hr]
    simp only [Row.stop, byteLength_append, byteLength_cons, hspace]
    omega
  have hoff : n + byteLength pre + byteLengthOf (anchorTrees anchor) + space.byteLength =
      n + byteLength pre + byteLength (anchorText anchor) + 1 := by
    rw [byteLengthOf_anchorTrees]
    rfl
  have htree : style.inlineTree (.word w : Inline c) = .node .literal [.leaf ⟨.text, w.chars⟩] := rfl
  have hleaf : ∀ t ∈ [Tree.leaf ⟨.text, w.chars⟩], t.isNode = false := by simp [isNode]
  have hlen : byteLengthOf [Tree.leaf ⟨.text, w.chars⟩] = byteLength w.chars := rfl
  rw [Writing.Slot.trees, nodesAt_append, nodesAt_anchor anchor (by omega), List.nil_append, nodesAt_cons, nodesAt_space,
    List.nil_append, hoff, htree, nodesAt_node (by omega) (by omega), nodesAt_leaves hleaf]
  -- only the word ends here, and the entry's head is in front of it
  refine .inl ⟨by rw [hr], fun z hz => .inr ?_⟩
  rw [List.mem_singleton.1 hz]
  refine ⟨rfl, hstop.symm, pre ++ (anchorText anchor ++ [' ']), w.chars, by simp [hr], ?_, fun h => hp fun c hc => ?_⟩
  · simp only [hr, byteLength_append, byteLength_cons, byteLength_nil, hspace]
    omega
  · exact h c (List.mem_append_left _ hc)

section Literal

variable {e : Break} {w : Word} {ls : List (Break × Word)}

theorem nodesAt_literalTree {pos : Nat} (h : m < pos) (hend : pos ≤ m + (literalTree d e w ls).byteLength) :
    nodesAt pos address i m [literalTree d e w ls] =
      ⟨address ++ [i], m, literalTree d e w ls⟩ ::
        (nodesAt pos (address ++ [i]) 0 m [.node .blockLiteralHeader [.leaf ⟨.pipe, ['|']⟩]] ++
          nodesAt pos (address ++ [i]) 2 (m + 1 + byteLength e.text)
            [.node .blockLiteralContent (contentTrees d w ls)]) := by
  have hfeed : ∀ t ∈ [Tree.leaf ⟨.newline, e.text⟩], t.isNode = false := by simp [isNode]
  rw [literalTree, nodesAt_node h hend, nodesAt_cons, nodesAt_cons (.leaf _), nodesAt_leaves hfeed,
    List.nil_append]
  rfl

theorem told_header (hrole : r.role = .header) (hstart : r.start ≤ m) (hstop : r.stop = m + 1) :
    r.Told rs (nodesAt r.stop address i m [literalTree d e w ls]) := by
  have hpipe : byteLengthOf [Tree.leaf ⟨.pipe, ['|']⟩] = 1 := rfl
  have hleaf : ∀ t ∈ [Tree.leaf ⟨.pipe, ['|']⟩], t.isNode = false := by simp [isNode]
  have hlen := byteLength_literalTree d e w ls
  rw [nodesAt_literalTree (by omega) (by omega), nodesAt_node (by omega) (by omega), nodesAt_leaves hleaf,
    nodesAt_ahead [.node .blockLiteralContent _] (by omega), List.append_nil]
  refine ⟨[], _, _, rfl, List.forall_mem_nil _, ?_, fun z hz => .inl ?_⟩
  · rw [Row.Tells, hrole]
    exact ⟨rfl, hstart, Nat.lt_of_succ_le (Nat.le_of_eq hstop.symm)⟩
  · rw [List.mem_singleton.1 hz]
    exact (by decide : Kind.blockLiteralHeader ∈ silentKinds)

theorem told_content (hrs : ∀ r ∈ contentRows d (m + 1) ((e, w) :: ls), r ∈ rs)
    (hr : r ∈ contentRows d (m + 1) ((e, w) :: ls)) :
    r.Told rs (nodesAt r.stop address i m [literalTree d e w ls]) := by
  obtain ⟨hrole, hindent⟩ := mem_contentRows hr
  obtain ⟨hlow, hhigh⟩ := (spans_content d ⟨m + 1 + byteLength e.text, spaces d ++ w.chars, .content⟩ ls).bounds r hr
  have hw := byteLength_word_pos w
  have hfirst : Row.stop ⟨m + 1 + byteLength e.text, spaces d ++ w.chars, .content⟩ =
      m + 1 + byteLength e.text + (byteLength (spaces d) + byteLength w.chars) := by
    rw [Row.stop, byteLength_append]
  have hlen := byteLengthOf_contentTrees d w ls
  have hend : r.stop ≤ m + (literalTree d e w ls).byteLength := by
    rw [byteLength_literalTree]
    simp only [linesText, byteLength_append]
    omega
  have hheader : byteLengthOf [Tree.node .blockLiteralHeader [.leaf ⟨.pipe, ['|']⟩]] = 1 := rfl
  rw [nodesAt_literalTree (by omega) hend, nodesAt_behind [_] (by omega), List.nil_append,
    nodesAt_node (by omega) (by omega), nodesAt_leaves isNode_contentTrees]
  refine ⟨[_], _, [], rfl, List.forall_mem_singleton.2 rfl, ?_, List.forall_mem_nil _⟩
  -- the content starts with the blanks of its first row, which are as many as those of `r`
  rw [Row.Tells, hrole]
  refine ⟨rfl, ?_, _, hrs _ List.mem_cons_self, rfl, ?_⟩
  · rw [isEmpty, decide_eq_false_iff_not, Tree.byteLength]
    omega
  · rw [hindent, indent_word]

theorem told_literal (anchor : Option Word) (hd : c < d)
    (hrs : ∀ r ∈ Slot.rows n pre (.inline anchor (.literal hd e w ls) : Slot k c), r ∈ rs)
    (hr : r ∈ Slot.rows n pre (.inline anchor (.literal hd e w ls) : Slot k c)) :
    r.Told rs (nodesAt r.stop address i (n + byteLength pre) (Writing.Slot.trees (.inline anchor (.literal hd e w ls) : Slot k c))) := by
  have hpipe := stop_header n pre anchor
  have hoff : n + byteLength pre + byteLengthOf (anchorTrees anchor) + space.byteLength =
      n + byteLength pre + byteLength (anchorText anchor) + 1 := by
    rw [byteLengthOf_anchorTrees]
    rfl
  have hlow : n + byteLength pre + byteLength (anchorText anchor) < r.stop := by
    have h := (spans_content d ⟨n, pre ++ (anchorText anchor ++ [' ', '|']), .header⟩ ((e, w) :: ls)).bounds r hr
    omega
  rw [Writing.Slot.trees, nodesAt_append, nodesAt_anchor anchor hlow, List.nil_append, nodesAt_cons, nodesAt_space,
    List.nil_append, hoff]
  rcases List.mem_cons.1 hr with rfl | hr
  · exact told_header rfl (by simp only; omega) hpipe
  · have hrs' := fun r hr => hrs r (List.mem_cons_of_mem _ hr)
    rw [hpipe] at hr hrs'
    exact told_content hrs' hr

end Literal

theorem heard_nested (anchor : Option Word) (e : Break) (hd : k.Below c j d) {b : Block j d}
    (hrs : ∀ r ∈ Slot.rows n pre (.nested anchor e hd b : Slot k c), r ∈ rs) (hr : r ∈ Slot.rows n pre (.nested anchor e hd b : Slot k c))
    (hb : r ∈ b.rows (n + byteLength (pre ++ anchorText anchor) + byteLength e.text) (spaces d) → ∀ address i,
      r.Heard rs d (nodesAt r.stop address i
        (n + byteLength (pre ++ anchorText anchor) + byteLength e.text + byteLength (spaces d)) b.trees)) :
    r.Heard rs c (nodesAt r.stop address i (n + byteLength pre) (Writing.Slot.trees (.nested anchor e hd b : Slot k c))) := by
  have hanchor := byteLengthOf_anchorTrees anchor
  have hbreak := byteLengthOf_breakTrees e d
  have hoff : n + byteLength (pre ++ anchorText anchor) + byteLength e.text + byteLength (spaces d) =
      n + byteLength pre + byteLengthOf (anchorTrees anchor) + byteLengthOf (breakTrees e d) := by
    rw [byteLength_append]
    omega
  rw [Writing.Slot.trees, nodesAt_append, nodesAt_append, nodesAt_break, List.nil_append]
  rcases List.mem_cons.1 hr with rfl | hr
  · -- the line of the head: there may be an anchor, and the collection is still to come
    have hstop : Row.stop ⟨n, pre ++ anchorText anchor, .entry c⟩ = n + byteLength (pre ++ anchorText anchor) := rfl
    rw [nodesAt_ahead [.node j.collection b.trees] (by omega), List.append_nil]
    exact .inl ⟨rfl, fun z hz => .inl (by rw [kind_of_mem_anchor anchor hz]; decide)⟩
  · have hrs : ∀ r ∈ b.rows (n + byteLength (pre ++ anchorText anchor) + byteLength e.text) (spaces d), r ∈ rs :=
      fun r hr => hrs r (List.mem_cons_of_mem _ hr)
    have ht := fun address i => told_collection address i hrs (length_spaces d) hr (hb hr)
    obtain ⟨hlow, -⟩ := (b.spans (n + byteLength (pre ++ anchorText anchor) + byteLength e.text) (spaces d)).bounds r hr
    rw [hoff] at ht
    rw [nodesAt_anchor anchor (by omega), List.nil_append]
    exact .inr (ht _ _)

theorem heard_compact {b : Block j (c + 2)} (hp : pre.length = c + 1) (hrs : ∀ r ∈ b.rows n (pre ++ [' ']), r ∈ rs)
    (hr : r ∈ b.rows n (pre ++ [' ']))
    (hb : ∀ address i, r.Heard rs (c + 2) (nodesAt r.stop address i (n + byteLength (pre ++ [' '])) b.trees)) :
    r.Heard rs c (nodesAt r.stop address i (n + byteLength pre) (Writing.Slot.trees (.compact b : Slot .sequence c))) := by
  have ht := fun address i => told_collection address i hrs (length_compact hp) hr hb
  rw [byteLength_append, ← Nat.add_assoc] at ht
  rw [Writing.Slot.trees, nodesAt_cons, nodesAt_space, List.nil_append]
  exact .inr (ht _ _)

mutual

theorem Block.heard (n : Nat) {pre : List Char} {k : Shape} {c : Nat} (hp : pre.length = c) : ∀ b : Block k c,
    (∀ r ∈ b.rows n pre, r ∈ rs) → ∀ r ∈ b.rows n pre, ∀ address i,
      r.Heard rs c (nodesAt r.stop address i (n + byteLength pre) b.trees)
  | .last h s, hrs, r, hr, address, i => by
    have hs := Slot.heard n (head_not_blank pre h) (length_dash hp h) s hrs r hr
    obtain ⟨hlow, hhigh⟩ := (Slot.spans n (pre ++ h.text) s).bounds r hr
    simp only [byteLength_append, ← Nat.add_assoc] at hs hlow hhigh
    exact heard_entry h hlow hhigh hs
  | .more h s e rest, hrs, r, hr, _, _ => heard_more h e hr
      (Slot.heard n (head_not_blank pre h) (length_dash hp h) s (fun r hr => hrs r (List.mem_append_left _ hr)) r)
      (Block.heard _ (length_spaces c) rest (fun r hr => hrs r (List.mem_append_right _ hr)) r)

theorem Slot.heard (n : Nat) {pre : List Char} {k : Shape} {c : Nat} (hp : ¬∀ c ∈ pre, c = ' ')
    (hlen : k = .sequence → pre.length = c + 1) : ∀ s : Slot k c,
    (∀ r ∈ s.rows n pre, r ∈ rs) → ∀ r ∈ s.rows n pre, ∀ address i,
      r.Heard rs c (nodesAt r.stop address i (n + byteLength pre) s.trees)
  | .inline anchor (.word w), _, _, hr, _, _ => heard_word anchor w hp (List.mem_singleton.1 hr)
  | .inline anchor (.literal h _ _ _), hrs, _, hr, _, _ => .inr (told_literal anchor h hrs hr)
  | .nested (d := d) anchor e h b, hrs, r, hr, _, _ => heard_nested anchor e h hrs hr
      (Block.heard _ (length_spaces d) b (fun r hr => hrs r (List.mem_cons_of_mem _ hr)) r)
  | .compact b, hrs, r, hr, _, _ => heard_compact (hlen rfl) hrs hr
      (Block.heard n (length_compact (hlen rfl)) b hrs r hr)

end

end Heard

theorem told_rows (o : Outline) {r : Row} (hr : r ∈ o.rows) :
    r.Told o.rows (o.tree.focus r.stop .before).chain.reverse := by
  have hlen : ([] : List Char).length = 0 := rfl
  have hrows : ∀ r ∈ o.root.rows 0 [], r ∈ o.rows := fun _ hr => hr
  have hr : r ∈ o.root.rows 0 [] := hr
  have hroot := told_collection [0] 0 hrows hlen hr (o.root.heard 0 hlen hrows r hr)
  obtain ⟨hlow, hhigh⟩ := (o.root.spans 0 []).bounds r hr
  have hend : r.stop ≤ 0 + byteLengthOf [.node o.shape.collection o.root.trees] := by
    rw [byteLengthOf_node, byteLengthOf_block]
    exact hhigh
  rw [chain_focus, List.reverse_append, List.reverse_reverse]
  change r.Told o.rows (o.tree.located ::
    nodesAt r.stop [] 0 0 (.node .document [.node o.shape.collection o.root.trees] :: endingTrees o.ending))
  rw [nodesAt_cons, nodesAt_node (by omega) hend, nodesAt_leaves (isNode_endingTrees o.ending), List.append_nil]
  exact (hroot.cons rfl).cons rfl

end Outline

end LosslessYaml
