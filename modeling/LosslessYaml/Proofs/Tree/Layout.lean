import LosslessYaml.Proofs.Tree.Schema
import LosslessYaml.Proofs.Token.Standing

namespace LosslessYaml

namespace Located

def lineBefore (s : List Char) (l : Located) : List Char := Text.lastLine (Text.front l.start s)

def column (s : List Char) (l : Located) : Nat := (l.lineBefore s).length

def inside (l : Located) : List Located := Tree.preorderOf l.address 0 l.start l.tree.children

def entries (k : Kind) (l : Located) : List Located := l.children.filter (·.tree.isNodeOf [k])

end Located

namespace Layout

open LosslessYaml.Tree

def collections : List Kind := [.blockSequence, .blockMapping]

/-- The entries of `l` stand in one column, all but the first on lines of their own. -/
structure Column (s : List Char) (k : Kind) (l : Located) : Prop where
  aligned : ∀ e ∈ l.entries k, e.column s = l.column s
  ownLine : ∀ e ∈ (l.entries k).tail, ∀ c ∈ e.lineBefore s, Text.isBlank c = true

def ItemInside (s : List Char) (l : Located) : Prop :=
  ∀ m ∈ l.inside, m.tree.isNodeOf collections = true → l.column s < m.column s

/-- Block collections in a pair are deeper than the pair, but a sequence that is its value may be level
with it. -/
def PairInside (s : List Char) (l : Located) : Prop :=
  ∀ m ∈ l.inside, m.tree.isNodeOf collections = true →
    l.column s < m.column s ∨ m ∈ l.children ∧ m.tree.isNodeOf [.blockSequence] = true ∧
      m.column s = l.column s

structure Holds (s : List Char) (l : Located) : Prop where
  sequence : l.tree.isNodeOf [.blockSequence] = true → Column s .item l
  mapping : l.tree.isNodeOf [.blockMapping] = true → Column s .pair l
  item : l.tree.isNodeOf [.item] = true → ItemInside s l
  pair : l.tree.isNodeOf [.blockMapping] = true → ∀ e ∈ l.entries .pair, PairInside s e

def Reaches (m : Nat) (u : List Char) (t : Tree) : Prop :=
  t.isNodeOf collections = true → m ≤ Text.column u

def Aligned (k : Kind) (col : Nat) (u : List Char) (t : Tree) : Prop :=
  t.isNodeOf [k] = true → Text.column u = col ∧ ∀ c ∈ Text.lastLine u, Text.isBlank c = true

def Inner (col : Nat) (u : List Char) (t : Tree) : Prop :=
  t.Every (Reaches (col + 1)) u ∨
    t.isNodeOf [.blockSequence] = true ∧ Text.column u = col ∧
      EveryOf (Reaches (col + 1)) u t.children

def PairLaid (u : List Char) (t : Tree) : Prop :=
  t.isNodeOf [.pair] = true → Each (Inner (Text.column u)) u t.children

def Collection (k : Kind) (u : List Char) : List Tree → Prop
  | [] => True
  | t :: ts => Each (Aligned k (Text.column u)) (u ++ t.text) ts ∧ Each PairLaid u (t :: ts)

def Laid (u : List Char) : Tree → Prop
  | .node .blockSequence cs => Collection .item u cs
  | .node .blockMapping cs => Collection .pair u cs
  | .node .item cs => EveryOf (Reaches (Text.column u + 1)) u cs
  | _ => True

/-- A forest behind `u` that keeps to the layout and has no block collection left of column `m`. -/
structure Good (m : Nat) (u : List Char) (cs : List Tree) : Prop where
  laid : EveryOf Laid u cs
  reaches : EveryOf (Reaches m) u cs

structure InPair (col : Nat) (u : List Char) (cs : List Tree) : Prop where
  laid : EveryOf Laid u cs
  inner : Each (Inner col) u cs

section Forests

variable {m n col : Nat} {u : List Char} {cs ds : List Tree} {k : Kind}

theorem reaches_mono (h : n ≤ m) (u : List Char) (t : Tree) (ht : Reaches m u t) : Reaches n u t :=
  fun hk => Nat.le_trans h (ht hk)

theorem Good.mono (hc : Good m u cs) (h : n ≤ m) : Good n u cs :=
  ⟨hc.laid, hc.reaches.imp (reaches_mono h)⟩

theorem good_nil : Good m u [] := ⟨trivial, trivial⟩

theorem Good.append (hc : Good m u cs) (hd : Good m (u ++ forestText cs) ds) :
    Good m u (cs ++ ds) :=
  ⟨everyOf_append.2 ⟨hc.laid, hd.laid⟩, everyOf_append.2 ⟨hc.reaches, hd.reaches⟩⟩

theorem InPair.append (hc : InPair col u cs) (hd : InPair col (u ++ forestText cs) ds) :
    InPair col u (cs ++ ds) :=
  ⟨everyOf_append.2 ⟨hc.laid, hd.laid⟩, each_append.2 ⟨hc.inner, hd.inner⟩⟩

theorem Good.inPair (hc : Good (col + 1) u cs) : InPair col u cs :=
  ⟨hc.laid, hc.reaches.each.imp fun _ _ => .inl⟩

theorem InPair.reaches (hc : InPair col u cs) : EveryOf (Reaches col) u cs := by
  obtain ⟨-, hc⟩ := hc
  induction cs generalizing u with
  | nil => trivial
  | cons t ts ih =>
    refine ⟨?_, ih hc.2⟩
    rcases hc.1 with h | ⟨hk, hcol, h⟩
    · exact h.imp (reaches_mono (Nat.le_succ col))
    · cases t with
      | leaf t => simp [isNodeOf] at hk
      | node k cs =>
        exact ⟨fun _ => Nat.le_of_eq hcol.symm, h.imp (reaches_mono (Nat.le_succ col))⟩

theorem laid_of_not_mem (h : k ∉ [Kind.blockSequence, .blockMapping, .item]) (u : List Char)
    (cs : List Tree) :
    Laid u (.node k cs) := by
  simp only [List.mem_cons, List.not_mem_nil, or_false, not_or] at h
  unfold Laid
  split <;> simp_all

theorem Good.node (hc : Good m u cs) (h : k ∉ [Kind.blockSequence, .blockMapping, .item]) :
    Good m u [.node k cs] := by
  refine ⟨⟨⟨laid_of_not_mem h u cs, hc.laid⟩, trivial⟩, ⟨⟨fun hk => ?_, hc.reaches⟩, trivial⟩⟩
  simp only [List.mem_cons, List.not_mem_nil, or_false, not_or] at h
  simp [isNodeOf, collections, h.1, h.2.1] at hk

theorem Good.item (hc : Good (Text.column u + 1) u cs) :
    Good (Text.column u + 1) u [.node .item cs] := by
  refine ⟨⟨⟨hc.reaches, hc.laid⟩, trivial⟩, ⟨⟨fun hk => ?_, hc.reaches⟩, trivial⟩⟩
  simp [isNodeOf, collections] at hk

theorem InPair.pair (hc : InPair (Text.column u) u cs) :
    Good (Text.column u) u [.node .pair cs] := by
  refine ⟨⟨⟨laid_of_not_mem (by decide) u cs, hc.laid⟩, trivial⟩,
    ⟨⟨fun hk => ?_, hc.reaches⟩, trivial⟩⟩
  simp [isNodeOf, collections] at hk

end Forests

section Located

variable {s v : List Char} {l : Located} {k : Kind}

theorem lineBefore_of_after (h : l.After v s) : l.lineBefore s = Text.lastLine v := by
  obtain ⟨hv, w, hs⟩ := h
  rw [Located.lineBefore, Text.front_append (hs.trans (List.append_assoc ..)) hv]

theorem column_of_after (h : l.After v s) : l.column s = Text.column v := by
  rw [Located.column, lineBefore_of_after h, Text.column]

theorem after_part {e : Located} {x : List Char} (h : l.After v s) (hn : l.tree.isNode = true)
    (he : e.After x (v ++ forestText l.tree.children)) : e.After x s := by
  obtain ⟨-, w, rfl⟩ := h
  cases ht : l.tree with
  | leaf t => simp [ht, isNode] at hn
  | node k cs =>
    rw [ht] at he
    rw [text_node]
    exact he.extend w

theorem isNode_of_isNodeOf {t : Tree} {ks : List Kind} (h : t.isNodeOf ks = true) :
    t.isNode = true := by
  cases t with
  | leaf t => simp [isNodeOf] at h
  | node k cs => rfl

theorem aligned_child {t : Tree} {ts : List Tree} {e : Located} (h : l.After v s)
    (hn : l.tree.isNode = true)
    (ht : l.tree.children = t :: ts) (ha : Each (Aligned k (Text.column v)) (v ++ t.text) ts)
    (he : e ∈ Located.childrenFrom l.address 1 (l.start + t.byteLength) ts)
    (hk : e.tree.isNodeOf [k] = true) :
    e.column s = l.column s ∧ ∀ c ∈ e.lineBefore s, Text.isBlank c = true := by
  rw [← h.1, byteLength_append_text] at he
  obtain ⟨x, hx, hax⟩ := ha.childrenFrom l.address 1 e he
  rw [← append_forestText_cons, ← ht] at hx
  have hx' := after_part h hn hx
  rw [column_of_after hx', lineBefore_of_after hx', column_of_after h]
  exact hax hk

theorem column_of_collection (h : l.After v s) (hn : l.tree.isNode = true)
    (hc : Collection k v l.tree.children) : Column s k l := by
  cases ht : l.tree.children with
  | nil => constructor <;> simp [Located.entries, Located.children, Located.childrenFrom, ht]
  | cons t ts =>
    rw [ht] at hc
    have hch : l.children = ⟨l.address ++ [0], l.start, t⟩ :: Located.childrenFrom l.address 1
        (l.start + t.byteLength) ts := by
      rw [Located.children, ht]
      rfl
    constructor
    · intro e he
      obtain ⟨he, hk⟩ := List.mem_filter.1 he
      rw [hch] at he
      rcases List.mem_cons.1 he with rfl | he
      · rfl
      · exact (aligned_child h hn ht hc.1 he hk).1
    · intro e he
      -- the first child is not in the tail of the entries, whether it is an entry or not
      have he' : e ∈ (Located.childrenFrom l.address 1 (l.start + t.byteLength) ts).filter
          (·.tree.isNodeOf [k]) := by
        rw [Located.entries, hch, List.filter_cons] at he
        split at he
        · exact he
        · exact List.mem_of_mem_tail he
      obtain ⟨he', hk⟩ := List.mem_filter.1 he'
      exact (aligned_child h hn ht hc.1 he' hk).2

theorem itemInside_of_laid (h : l.After v s) (hn : l.tree.isNode = true)
    (hl : EveryOf (Reaches (Text.column v + 1)) v l.tree.children) : ItemInside s l := by
  intro m hm hk
  rw [Located.inside, ← h.1] at hm
  obtain ⟨x, hx, hr⟩ := hl.preorderOf l.address 0 m hm
  rw [column_of_after h, column_of_after (after_part h hn hx)]
  exact hr hk

theorem inner_cases {col : Nat} {ts : List Tree} {u : List Char} (address : List Nat) (i : Nat)
    (h : Each (Inner col) u ts) : ∀ m ∈ preorderOf address i (Text.byteLength u) ts,
      m.tree.isNodeOf collections = true → ∃ x, m.After x (u ++ forestText ts) ∧
        (col < Text.column x ∨ m ∈ Located.childrenFrom address i (Text.byteLength u) ts ∧
          m.tree.isNodeOf [.blockSequence] = true ∧ Text.column x = col) := by
  induction ts generalizing u i with
  | nil => simp [preorderOf]
  | cons t ts ih =>
    intro m hm hk
    rw [preorderOf] at hm
    rw [append_forestText_cons, Located.childrenFrom, byteLength_append_text]
    rcases List.mem_append.1 hm with hm | hm
    · rcases h.1 with hr | ⟨hseq, hcol, hr⟩
      · obtain ⟨x, hx, hxr⟩ := hr.preorderFrom _ m hm
        exact ⟨x, hx.extend _, .inl (hxr hk)⟩
      · cases t with
        | leaf t => simp [isNodeOf] at hseq
        | node k cs =>
          rcases List.mem_cons.1 hm with rfl | hm
          · exact ⟨u, after_self _ u _ _, .inr ⟨List.mem_cons_self, hseq, hcol⟩⟩
          · obtain ⟨x, hx, hxr⟩ := hr.preorderOf _ 0 m hm
            rw [children, ← text_node k] at hx
            exact ⟨x, hx.extend _, .inl (hxr hk)⟩
    · rw [byteLength_append_text] at hm
      obtain ⟨x, hx, hc⟩ := ih (i + 1) h.2 m hm hk
      refine ⟨x, hx, ?_⟩
      rcases hc with hc | ⟨hmem, hc⟩
      · exact .inl hc
      · exact .inr ⟨List.mem_cons_of_mem _ hmem, hc⟩

theorem pairInside_of_laid (h : l.After v s) (hn : l.tree.isNode = true)
    (hl : Each (Inner (Text.column v)) v l.tree.children) : PairInside s l := by
  intro m hm hk
  rw [Located.inside, ← h.1] at hm
  obtain ⟨x, hx, hc⟩ := inner_cases l.address 0 hl m hm hk
  rw [column_of_after h, column_of_after (after_part h hn hx)]
  rw [h.1] at hc
  exact hc

theorem holds_of_laid (h : l.After v s) (hl : Laid v l.tree) : Holds s l := by
  cases ht : l.tree with
  | leaf t => constructor <;> simp [ht, isNodeOf]
  | node k cs =>
    have hn : l.tree.isNode = true := by rw [ht, isNode]
    have hcs : l.tree.children = cs := by rw [ht, children]
    rw [ht] at hl
    constructor
    · intro hk
      rw [ht] at hk
      obtain rfl : k = .blockSequence := by simpa [isNodeOf] using hk
      exact column_of_collection h hn (hcs ▸ hl)
    · intro hk
      rw [ht] at hk
      obtain rfl : k = .blockMapping := by simpa [isNodeOf] using hk
      exact column_of_collection h hn (hcs ▸ hl)
    · intro hk
      rw [ht] at hk
      obtain rfl : k = .item := by simpa [isNodeOf] using hk
      exact itemInside_of_laid h hn (hcs ▸ hl)
    · intro hk e he
      rw [ht] at hk
      obtain rfl : k = .blockMapping := by simpa [isNodeOf] using hk
      obtain ⟨he, hp⟩ := List.mem_filter.1 he
      have hpairs : Each PairLaid v l.tree.children := by
        rw [hcs]
        cases cs with
        | nil => trivial
        | cons t ts => exact hl.2
      rw [Located.children, ← h.1] at he
      obtain ⟨x, hx, hpx⟩ := hpairs.childrenFrom l.address 0 e he
      exact pairInside_of_laid (after_part h hn hx) (isNode_of_isNodeOf hp) (hpx hp)

end Located

def Bare (cs : List Tree) : Prop :=
  ∀ u, EveryOf (fun _ t => t.isNodeOf [.blockSequence, .blockMapping, .item] = false) u cs

theorem bare_nil : Bare [] := fun _ => trivial

theorem Bare.append {cs ds : List Tree} (hc : Bare cs) (hd : Bare ds) : Bare (cs ++ ds) :=
  fun u => everyOf_append.2 ⟨hc u, hd _⟩

theorem bare_leaves {cs : List Tree} (h : ∀ t ∈ cs, t.isNode = false) : Bare cs :=
  fun u => everyOf_leaves (fun _ _ => rfl) h u

theorem Bare.node {k : Kind} {cs : List Tree} (hc : Bare cs)
    (h : k ∉ [Kind.blockSequence, .blockMapping, .item]) :
    Bare [.node k cs] :=
  fun u => ⟨⟨decide_eq_false h, hc u⟩, trivial⟩

theorem Bare.good {cs : List Tree} (hc : Bare cs) (m : Nat) (u : List Char) : Good m u cs := by
  refine ⟨(hc u).imp fun v t ht => ?_, (hc u).imp fun v t ht hk => ?_⟩
  · cases t with
    | leaf t => trivial
    | node k cs => exact laid_of_not_mem (of_decide_eq_false ht) v cs
  · cases t with
    | leaf t => simp [isNodeOf] at hk
    | node k cs =>
      refine absurd (of_decide_eq_true hk) fun hk => of_decide_eq_false ht ?_
      simp only [collections, List.mem_cons, List.not_mem_nil, or_false] at hk ⊢
      rcases hk with rfl | rfl <;> simp

end Layout

end LosslessYaml
