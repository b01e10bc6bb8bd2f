import LosslessYaml.Proofs.Layout.Entry
import LosslessYaml.Proofs.Text.Lines

namespace LosslessYaml

namespace Tree

theorem each_of_mem {P : Tree → Prop} {ts : List Tree} (h : ∀ t ∈ ts, P t) (u : List Char) :
    Each (fun _ => P) u ts := by
  induction ts generalizing u with
  | nil => trivial
  | cons t ts ih =>
    exact ⟨h t List.mem_cons_self, ih (fun x hx => h x (List.mem_cons_of_mem _ hx)) _⟩

theorem mem_leavesOf {t : Tree} {ts : List Tree} (h : t ∈ ts) : ∀ x ∈ t.leaves, x ∈ leavesOf ts := by
  intro x hx
  obtain ⟨us, vs, rfl⟩ := List.append_of_mem h
  simp [leavesOf, hx]

theorem mem_leaves_of_child {t u : Tree} (h : u ∈ t.children) : ∀ x ∈ u.leaves, x ∈ t.leaves := by
  cases t with
  | leaf t => simp [children] at h
  | node k cs => exact mem_leavesOf h

mutual

theorem every_leaves {Q : Token → Prop} (u : List Char) : ∀ {t : Tree}, (∀ x ∈ t.leaves, Q x) →
    t.Every (fun _ t => ∀ x ∈ t.leaves, Q x) u
  | .leaf _, h => h
  | .node _ _, h => ⟨h, everyOf_leavesOf u h⟩

theorem everyOf_leavesOf {Q : Token → Prop} (u : List Char) :
    ∀ {ts : List Tree}, (∀ x ∈ leavesOf ts, Q x) → EveryOf (fun _ t => ∀ x ∈ t.leaves, Q x) u ts
  | [], _ => trivial
  | _ :: _, h => ⟨every_leaves u fun x hx => h x (List.mem_append_left _ hx),
      everyOf_leavesOf _ fun x hx => h x (List.mem_append_right _ hx)⟩

end

end Tree

namespace Located

def scalars (l : Located) : List Located :=
  l.entries .literal ++ (l.entries .blockLiteral).flatMap (·.entries .blockLiteralContent)

/-- The line feed that ends `u` lies in a quote of `l`. -/
def FeedInQuote (l : Located) (u : List Char) : Prop :=
  ∃ w a, u = w ++ a ++ ['\n'] ∧ Text.byteLength w = l.start ∧ Token.FeedInQuote l.tree.leaves a

end Located

namespace Layout

open LosslessYaml.Tree Text

/-- A line that starts inside of `x` and is not blank starts to the right of column `c`, unless `x` came
to that line in a quote. -/
def LinesDeeper (s : List Char) (c : Nat) (x : Located) : Prop :=
  ∀ u v, s = u ++ v → AtLineStart u → x.start < byteLength u → byteLength u < x.stop →
    ¬ BlankLine v → c < indentation v ∨ x.FeedInQuote u

section Located

variable {s v : List Char} {l x : Located} {c : Nat}

theorem linesDeeper_of_deepens (h : x.After v s) (hs : ∀ t ∈ x.tree.leaves, t.Scanned)
    (hd : Deepens (c + 1) x.tree) : LinesDeeper s c x := by
  obtain ⟨hv, r, rfl⟩ := h
  intro u w huw hu hstart hstop hblank
  rw [Located.stop, byteLength_eq] at hstop
  rw [List.append_assoc] at huw
  rcases List.append_eq_append_iff.1 huw with ⟨a, rfl, ha⟩ | ⟨a, rfl, -⟩
  · have hne : a ≠ [] := by
      rintro rfl
      rw [List.append_nil, hv] at hstart
      exact Nat.lt_irrefl _ hstart
    obtain ⟨b, rfl⟩ := (hu.of_append hne).resolve_left hne
    rcases List.append_eq_append_iff.1 ha with ⟨b', hb, -⟩ | ⟨b', hb, rfl⟩
    · rw [hb, byteLength_append, byteLength_append, hv] at hstop
      omega
    · rw [List.append_assoc] at hb
      rcases hd hs b b' hb with hr | hq
      · exact .inl ((hr.append r).resolve_left hblank)
      · exact .inr ⟨v, b, (List.append_assoc ..).symm, hv, hq⟩
  · rw [byteLength_append] at hv
    omega

theorem after_child {P : Tree → Prop} (h : l.After v s) (hn : l.tree.isNode = true)
    (hp : ∀ t ∈ l.tree.children, P t) : ∀ e ∈ l.children, ∃ w, e.After w s ∧ P e.tree := by
  intro e he
  rw [Located.children, ← h.1] at he
  obtain ⟨w, hw, hpw⟩ := (each_of_mem hp v).childrenFrom l.address 0 e he
  exact ⟨w, after_part h hn hw, hpw⟩

theorem linesDeeper_scalars (h : l.After v s) (hn : l.tree.isNode = true)
    (hs : ∀ t ∈ l.tree.leaves, t.Scanned)
    (hd : ∀ t ∈ l.tree.children, ScalarDeepens (c + 1) t) :
    ∀ x ∈ l.scalars, LinesDeeper s c x := by
  intro x hx
  have hchild := after_child h hn (P := fun t => ScalarDeepens (c + 1) t ∧
    ∀ x ∈ t.leaves, x.Scanned)
    fun t ht => ⟨hd t ht, fun x hx => hs x (mem_leaves_of_child ht x hx)⟩
  rcases List.mem_append.1 hx with hx | hx
  · obtain ⟨hx, hk⟩ := List.mem_filter.1 hx
    obtain ⟨w, hw, hdeep, hleaves⟩ := hchild x hx
    refine linesDeeper_of_deepens hw hleaves ?_
    cases ht : x.tree with
    | leaf t => simp [ht, isNodeOf] at hk
    | node k cs =>
      obtain rfl : k = .literal := by simpa [ht, isNodeOf] using hk
      rwa [ht] at hdeep
  · obtain ⟨e, he, hx⟩ := List.mem_flatMap.1 hx
    obtain ⟨he, hek⟩ := List.mem_filter.1 he
    obtain ⟨hx, hk⟩ := List.mem_filter.1 hx
    obtain ⟨w, hw, hdeep, hleaves⟩ := hchild e he
    cases ht : e.tree with
    | leaf t => simp [ht, isNodeOf] at hek
    | node k cs =>
      obtain rfl : k = .blockLiteral := by simpa [ht, isNodeOf] using hek
      rw [ht] at hdeep
      obtain ⟨y, hy, hdx, hly⟩ := after_child hw (isNode_of_isNodeOf hek)
        (P := fun t => (t.isNodeOf [.blockLiteralContent] = true → Deepens (c + 1) t) ∧
          ∀ x ∈ t.leaves, x.Scanned)
        (fun t htc => ⟨hdeep t (by rwa [ht] at htc),
          fun z hz => hleaves z (mem_leaves_of_child htc z hz)⟩) x hx
      exact linesDeeper_of_deepens hy hly (hdx hk)

end Located

end Layout

/-- The scalar that is the value of an item, or of a pair of a block mapping, never takes a line that is
not indented deeper than the entry, other than by a quote that reaches to that line. -/
theorem parse_scalars_deeper (s : List Char) :
    ∀ l ∈ (parse s).nodes,
      (l.tree.isNodeOf [.item] = true → ∀ x ∈ l.scalars, Layout.LinesDeeper s (l.column s) x) ∧
      (l.tree.isNodeOf [.blockMapping] = true → ∀ e ∈ l.entries .pair, ∀ x ∈ e.scalars,
        Layout.LinesDeeper s (e.column s) x) := by
  intro l hl
  have hl' := (List.mem_filter.1 hl).1
  have ht : (parse s).text = s := by rw [Tree.text, leaves_parse, Token.textOf_scan]
  have hk := Grammar.kept_documents (Placed.stands_place s)
  have he : (parse s).Every Layout.EntryDeepens [] := ⟨trivial, hk.entries⟩
  have hf : ∀ x ∈ (parse s).leaves, x.Scanned := by
    rw [leaves_parse]
    exact fun _ => Token.scanned_of_mem_scan
  obtain ⟨-, -, hs⟩ := (Tree.every_leaves [] hf).preorderFrom [] l hl'
  obtain ⟨v, hv, hd⟩ := he.preorderFrom [] l hl'
  rw [List.nil_append, ht] at hv
  cases hn : l.tree with
  | leaf t => simp [Tree.isNodeOf]
  | node k cs =>
    have hcs : l.tree.children = cs := by rw [hn, Tree.children]
    have hnode : l.tree.isNode = true := by rw [hn, Tree.isNode]
    rw [hn] at hd
    constructor
    · intro hk
      obtain rfl : k = .item := by simpa [Tree.isNodeOf] using hk
      rw [Layout.column_of_after hv]
      exact Layout.linesDeeper_scalars hv hnode hs (hcs ▸ hd)
    · intro hk e he
      obtain rfl : k = .blockMapping := by simpa [Tree.isNodeOf] using hk
      obtain ⟨he, hp⟩ := List.mem_filter.1 he
      have hpairs : Tree.Each Layout.PairDeepens v l.tree.children := hcs ▸ hd
      obtain ⟨-, -, hse⟩ := Layout.after_child hv hnode (P := fun t => ∀ x ∈ t.leaves, _)
        (fun t ht x hx => hs x (Tree.mem_leaves_of_child ht x hx)) e he
      rw [Located.children, ← hv.1] at he
      -- `w` is the text in front of the pair, `v` that in front of its mapping
      obtain ⟨w, hw, hpw⟩ := hpairs.childrenFrom l.address 0 e he
      have hw' := Layout.after_part hv hnode hw
      rw [Layout.column_of_after hw']
      exact Layout.linesDeeper_scalars hw' (Layout.isNode_of_isNodeOf hp) hse (hpw hp)

theorem parse_scalars_deeper_second_line :
    ∃ l ∈ (parse ['-', ' ', 'a', '\n', ' ', ' ', 'b']).nodes, l.tree.isNodeOf [.item] = true ∧
      ∃ x ∈ l.scalars, x.start < Text.byteLength ['-', ' ', 'a', '\n'] ∧
        Text.byteLength ['-', ' ', 'a', '\n'] < x.stop ∧
        Layout.LinesDeeper ['-', ' ', 'a', '\n', ' ', ' ', 'b']
          (l.column ['-', ' ', 'a', '\n', ' ', ' ', 'b']) x := by
  have h : ∃ l ∈ (parse ['-', ' ', 'a', '\n', ' ', ' ', 'b']).nodes,
      l.tree.isNodeOf [.item] = true ∧ ∃ x ∈ l.scalars,
        x.start < Text.byteLength ['-', ' ', 'a', '\n'] ∧
        Text.byteLength ['-', ' ', 'a', '\n'] < x.stop := by
    decide +kernel
  obtain ⟨l, hl, hi, x, hx, hstart, hstop⟩ := h
  exact ⟨l, hl, hi, x, hx, hstart, hstop, (parse_scalars_deeper _ l hl).1 hi x hx⟩

/-- The scalar of the item in `- a 'b⏎c'` goes on in the item's own column, behind the quote. -/
theorem quote_takes_scalar_left :
    ¬ Text.BlankLine ['c', '\''] ∧ Text.AtLineStart ['-', ' ', 'a', ' ', '\'', 'b', '\n'] ∧
      ∃ l ∈ (parse ['-', ' ', 'a', ' ', '\'', 'b', '\n', 'c', '\'']).nodes,
        l.tree.isNodeOf [.item] = true ∧ ∃ x ∈ l.scalars,
          x.start < Text.byteLength ['-', ' ', 'a', ' ', '\'', 'b', '\n'] ∧
          Text.byteLength ['-', ' ', 'a', ' ', '\'', 'b', '\n'] < x.stop ∧
          Text.indentation ['c', '\''] =
            l.column ['-', ' ', 'a', ' ', '\'', 'b', '\n', 'c', '\''] := by
  refine ⟨by decide, .inr ⟨['-', ' ', 'a', ' ', '\'', 'b'], rfl⟩, ?_⟩
  decide +kernel

end LosslessYaml
