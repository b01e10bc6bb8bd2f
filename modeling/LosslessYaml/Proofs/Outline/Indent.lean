import LosslessYaml.Proofs.Indent.Opinion
import LosslessYaml.Proofs.Outline.Opinion
import LosslessYaml.Proofs.Outline.Parse
import LosslessYaml.Proofs.Text.Column

namespace LosslessYaml

namespace Outline

open Text
open Writing (Word)

def Fits (o : Outline) (unit : Nat) : Prop :=
  ∀ r ∈ o.rows, r.text.length < columnLimit ∧ r.target unit < columnLimit

instance (o : Outline) (unit : Nat) : Decidable (o.Fits unit) :=
  inferInstanceAs (Decidable (∀ r ∈ o.rows, r.text.length < columnLimit ∧ r.target unit < columnLimit))

theorem takeWhile_isBlank {x : List Char} (hx : Clean x) : x.takeWhile isBlank = x.takeWhile (· = ' ') := by
  induction x with
  | nil => rfl
  | cons c x ih =>
    have hc : isBlank c = decide (c = ' ') := by
      by_cases hc : c = ' '
      · rw [hc]
        rfl
      · have htab : c ≠ '\t' := fun h => hc (hx c List.mem_cons_self (by rw [h]; decide))
        simp [isBlank, hc, htab]
    rw [List.takeWhile_cons, List.takeWhile_cons, hc, ih fun d hd => hx d (List.mem_cons_of_mem c hd)]

section Document

variable {o : Outline} {d : Document} {r : Row} {p q : List Char}

theorem exists_line (hd : d.text = o.text) (hr : r ∈ o.rows) : ∃ l ∈ d.lines, l.start = r.start ∧ l.text = r.text := by
  have h := lines_text o d hd
  have hmem : (r.start, r.text) ∈ d.lines.map fun l => (l.start, l.text) := by
    rw [h]
    exact List.mem_append_left _ (List.mem_map_of_mem hr)
  obtain ⟨l, hl, heq⟩ := List.mem_map.1 hmem
  exact ⟨l, hl, congrArg Prod.fst heq, congrArg Prod.snd heq⟩

theorem stop_le_size (hd : d.text = o.text) (hr : r ∈ o.rows) : r.stop ≤ d.size := by
  obtain ⟨l, hl, hs, ht⟩ := exists_line hd hr
  rw [Row.stop, ← hs, ← ht]
  exact Document.stop_le_size hl

theorem rows_apart {r' : Row} (hr : r ∈ o.rows) (hr' : r' ∈ o.rows) :
    r.start = r'.start ∧ r.stop = r'.stop ∨ r.stop < r'.start ∨ r'.stop < r.start := by
  obtain ⟨l, hl, hs, ht⟩ := exists_line (d := Document.ofText o.text) rfl hr
  obtain ⟨l', hl', hs', ht'⟩ := exists_line (d := Document.ofText o.text) rfl hr'
  rw [Row.stop, Row.stop, ← hs, ← hs', ← ht, ← ht']
  exact (Document.lines_apart hl hl').imp_left fun h => by rw [h]; exact ⟨rfl, rfl⟩

theorem not_mem_tab (hr : r ∈ o.rows) (hp : r.text = p ++ q) : '\t' ∉ p := fun h =>
  (o.clean_rows r hr).not_mem (by decide) (by decide) (hp ▸ List.mem_append_left q h)

theorem column_row (hd : d.text = o.text) (hr : r ∈ o.rows) (hlen : r.text.length < columnLimit)
    (hp : r.text = p ++ q) : d.column (r.start + byteLength p) = .ok p.length := by
  obtain ⟨l, hl, hs, ht⟩ := exists_line hd hr
  rw [hp, List.length_append] at hlen
  rw [← hs, Document.column_append hl (ht.trans hp), Column.count_eq_length (absurd · (not_mem_tab hr hp)) (by omega)]

theorem lineIndent_row (hd : d.text = o.text) (hr : r ∈ o.rows) (hlen : r.text.length < columnLimit)
    (hp : r.text = p ++ q) : d.lineIndent (r.start + byteLength p) = .ok r.indent := by
  obtain ⟨l, hl, hs, ht⟩ := exists_line hd hr
  have hindent : l.indentation = r.text.takeWhile (· = ' ') := by
    rw [Line.indentation, ht, takeWhile_isBlank (o.clean_rows r hr)]
  have hle : (r.text.takeWhile (· = ' ')).length ≤ r.text.length := (List.takeWhile_prefix _).length_le
  rw [← hs, Document.lineIndent_append hl (ht.trans hp), hindent,
    Column.count_eq_length (absurd · (not_mem_tab hr (List.takeWhile_append_dropWhile.symm))) (by omega)]
  rfl

end Document

theorem encloses_of_start {o : Outline} {r : Row} {x a : Located} (hr : r ∈ o.rows) (hx : x ∈ o.tree.nodes)
    (hs : r.start ≤ x.start) (ht : x.start = r.start ∨ x.start < r.stop) (ha : a ∈ o.tree.nodes)
    (hbefore : a.start < r.start) (hbehind : r.start < a.stop) : a.encloses x = true := by
  rcases straight_nodes o ha with rfl | ⟨r', hr', hle, hstraight⟩
  · rfl
  have happart := rows_apart hr hr'
  rcases Tree.nodes_apart ha hx with rfl | (h | h) | h
  · omega
  · exact h.encloses
  · -- `a` would have to end before the row does, without staying on one
    have hrow : r.start ≤ r.stop := Nat.le_add_right _ _
    have hrow' : r'.start ≤ r'.stop := Nat.le_add_right _ _
    omega
  · have := h.start_le
    omega

theorem indent_lt {r : Row} {p q : List Char} (hp : r.text = p ++ q) (hne : ¬∀ c ∈ p, c = ' ') :
    r.indent < p.length := by
  refine Nat.lt_of_not_le fun hle => hne fun c hc => ?_
  have hpre : p <+: r.text.takeWhile (· = ' ') :=
    List.prefix_of_prefix_length_le ⟨q, hp.symm⟩ (List.takeWhile_prefix _) hle
  exact of_decide_eq_true (List.all_eq_true.1 List.all_takeWhile c (hpre.subset hc))

section Cursor

variable {o : Outline} {c : Cursor} {r : Row} {x : Located}

theorem baseIndent_row (hroot : c.root = o.tree) (hd : c.doc.text = o.text) (hr : r ∈ o.rows)
    (hlen : r.text.length < columnLimit) (hx : x ∈ o.tree.nodes) (hs : r.start ≤ x.start)
    (ht : x.start = r.start ∨ x.start < r.stop) : c.baseIndent x = .ok r.indent := by
  obtain ⟨l, hl, hstart, htext⟩ := exists_line hd hr
  have hstop : l.stop = r.stop := by rw [Line.stop, Row.stop, hstart, htext]
  have hrow : r.start ≤ r.stop := Nat.le_add_right _ _
  have hsize := Document.stop_le_size hl
  have hhold : c.doc.lineHolding x.start = l := Document.lineHolding_eq hl (by omega) (by omega) (by omega)
  have hbase : c.baseLine x l = l := by
    refine Cursor.baseLine_eq (by rw [hroot]; rfl) fun a ha hbefore hbehind => ?_
    rw [hroot] at ha
    rw [hstart] at hbefore hbehind
    exact encloses_of_start hr hx hs ht ha hbefore hbehind
  have hindent := lineIndent_row (p := []) hd hr hlen rfl
  rw [Cursor.baseIndent, hhold, hbase, hstart]
  exact hindent

theorem opinion_of_ignores (hd : c.doc.text = o.text) (hr : r ∈ o.rows) (hlen : r.text.length < columnLimit)
    (hpos : c.pos = r.stop) (h : r.Ignores x) : c.opinion x = .ok .pass := by
  rcases h with h | ⟨hk, hstop, p, q, hp, hstart, hne⟩
  · simp only [silentKinds, List.mem_cons, List.not_mem_nil, or_false] at h
    rcases h with h | h | h | h <;> rw [Cursor.opinion, h] <;> rfl
  · have hcol := column_row hd hr hlen hp
    have hindent := lineIndent_row hd hr hlen hp
    have hlt := indent_lt hp hne
    rw [← hstart] at hcol hindent
    simp only [Cursor.opinion, hk, hcol, hindent]
    change (if p.length = r.indent then _ else if c.pos < x.stop then _ else _) = _
    rw [if_neg (by omega), if_neg (by omega)]
    rfl

theorem opinion_of_tells (hroot : c.root = o.tree) (hd : c.doc.text = o.text) (hfits : o.Fits c.unit) (hr : r ∈ o.rows)
    (hx : x ∈ o.tree.nodes) (h : r.Tells o.rows x) : c.opinion x = .ok (.column (r.target c.unit)) := by
  obtain ⟨hlen, htarget⟩ := hfits r hr
  rw [Row.Tells] at h
  split at h
  · next hrole =>
    obtain ⟨hk, hs, ht⟩ := h
    have hbase := baseIndent_row hroot hd hr hlen hx hs (.inr ht)
    rw [Row.target, hrole] at htarget ⊢
    simp only [Cursor.opinion, hk, hbase]
    change (Column.add r.indent c.unit >>= _) = _
    rw [Column.add, if_pos htarget]
    rfl
  · next hrole =>
    obtain ⟨hk, hne, r', hr', hs, hindent⟩ := h
    have hbase := baseIndent_row hroot hd hr' (hfits r' hr').1 hx (Nat.le_of_eq hs.symm) (.inl hs)
    rw [Row.target, hrole]
    simp only [Cursor.opinion, hk, hne, hbase, hindent]
    rfl
  · next col hrole =>
    obtain ⟨hk, r', hr', p, q, hp, hs, rfl⟩ := h
    have hcol := column_row hd hr' (hfits r' hr').1 hp
    rw [← hs] at hcol
    rw [Row.target, hrole]
    rcases hk with hk | hk <;> simp only [Cursor.opinion, hk, hcol] <;> rfl

theorem stop_le_of_mem_chain (hr : r ∈ o.rows) (hx : x ∈ (o.tree.focus r.stop .before).chain) :
    x ∈ o.tree.nodes ∧ r.stop ≤ x.stop := by
  obtain ⟨hmem, rfl | hat⟩ := Tree.mem_chain_focus rfl hx
  · have hsize := stop_le_size (d := Document.ofText o.text) rfl hr
    refine ⟨hmem, Nat.le_trans hsize ?_⟩
    rw [Located.stop, Tree.located, Tree.byteLength_eq, text_tree, Nat.zero_add]
    exact Nat.le_refl _
  · simp only [Side.holds, Bool.and_eq_true, decide_eq_true_eq] at hat
    exact ⟨hmem, hat.2⟩

theorem indent_row (hroot : c.root = o.tree) (hd : c.doc.text = o.text) (hpos : c.pos = r.stop)
    (hfits : o.Fits c.unit) (hr : r ∈ o.rows) : c.indent = .ok (some (r.target c.unit)) := by
  have htold := told_rows o hr
  have hflow := htold.isFlowCollection
  have hfocus : c.focus = o.tree.focus r.stop .before := by rw [Cursor.focus, hroot, hpos]
  obtain ⟨ys, x, zs, hchain, -, hx, hz⟩ := htold
  have hsplit : c.focus.chain = zs.reverse ++ x :: ys.reverse := by
    rw [hfocus, ← List.reverse_reverse (Focus.chain _), hchain]
    simp
  have hmem : ∀ n ∈ zs.reverse ++ x :: ys.reverse, n ∈ o.tree.nodes ∧ c.pos ≤ n.stop := by
    intro n hn
    rw [← hsplit, hfocus] at hn
    rw [hpos]
    exact stop_le_of_mem_chain hr hn
  -- without brackets the search ends at the root, which asks the block structure
  have hstream : c.indent = c.streamIndent := by
    refine Cursor.indentAmong_eq_streamIndent (fun n hn => ?_) ⟨o.tree.located, ?_, rfl⟩
    · rw [hfocus] at hn
      exact hflow n (List.mem_reverse.2 hn)
    · rw [hfocus, Tree.chain_focus]
      exact List.mem_append_right _ (List.mem_singleton_self _)
  obtain ⟨hxn, hxs⟩ := hmem x (by simp)
  rw [hstream, Cursor.streamIndent, hsplit]
  refine Cursor.firstOpinion_eq (fun z hz' => ⟨(hmem z (List.mem_append_left _ hz')).2, ?_⟩) hxs
    (opinion_of_tells hroot hd hfits hr hxn hx)
  exact opinion_of_ignores hd hr (hfits r hr).1 hpos (hz z (List.mem_reverse.1 hz'))

end Cursor

/-- At the end of each line of an outline the new line starts in the row's target column: behind the first line of a
block scalar one level deeper than this line, behind its further lines where they start, and else where the last entry
that starts on the line does. -/
theorem indent_rows (o : Outline) (unit tab : Nat) (h : o.Fits unit) :
    (((Document.ofText o.text).withTabSize tab).lines.map fun l => (l.start, l.text)) =
        (o.rows.map fun r => (r.start, r.text)) ++ o.lineBelow ∧
      ∀ r ∈ o.rows, (Cursor.ofOffset (parse o.text) ((Document.ofText o.text).withTabSize tab) r.stop unit).indent =
        .ok (some (r.target unit)) := by
  refine ⟨lines_text o _ rfl, fun r hr => ?_⟩
  have hd : ((Document.ofText o.text).withTabSize tab).text = o.text := rfl
  have hpos : min r.stop ((Document.ofText o.text).withTabSize tab).size = r.stop :=
    Nat.min_eq_left (stop_le_size hd hr)
  exact indent_row (parse_text o) hd hpos h hr

def letter (c : Char) (h : c.isAlphanum = true) : Word := ⟨[c], List.cons_ne_nil c [], List.forall_mem_singleton.2 h⟩

def compactMapping : Block .mapping 2 :=
  .more (.key (letter 'k' rfl)) (.inline none (.word (letter 'v' rfl))) .lf
    (.last (.key (letter 'm' rfl)) (.nested (j := .sequence) (d := 4) none .lf (.inl (by decide))
      (.last .dash (.inline none (.word (letter 'n' rfl))))))

def mixed : Outline where
  shape := .mapping
  root := .more (.key (letter 'a' rfl))
    (.inline none (.literal (d := 2) (by decide) .lf (letter 'x' rfl) [(.crlf, letter 'y' rfl)])) .lf
    (.last (.key (letter 'b' rfl)) (.nested (j := .sequence) (d := 0) (some (letter 'r' rfl)) .lf (.inr ⟨rfl, rfl, rfl⟩)
      (.last .dash (.compact compactMapping))))
  ending := some .lf

theorem indent_rows_mixed :
    mixed.text = "a: |\n  x\r\n  y\nb: &r\n- k: v\n  m:\n    - n\n".toList ∧ mixed.Fits 2 ∧
      mixed.rows.map (Row.target 2) = [2, 2, 2, 0, 2, 2, 4] ∧
      ∀ r ∈ mixed.rows,
        (Cursor.ofOffset (parse mixed.text) ((Document.ofText mixed.text).withTabSize 4) r.stop 2).indent =
          .ok (some (r.target 2)) :=
  ⟨by decide, by decide, by decide, (indent_rows mixed 2 4 (by decide)).2⟩

end Outline

end LosslessYaml
