import LosslessYaml.Proofs.Text.Holding

namespace LosslessYaml

open Text

namespace Column

theorem next_eq_succ {tab n : Nat} {c : Char} (ht : c = '\t' → tab = 1) (h : n + 1 < columnLimit) :
    next tab n c = .ok (n + 1) := by
  by_cases hc : c = '\t'
  · rw [next, if_pos hc, ht hc, if_pos h, Nat.mod_one, Nat.sub_zero]
  · rw [next, if_neg hc, if_pos h]

theorem foldlM_next {tab n : Nat} {s : List Char} (ht : '\t' ∈ s → tab = 1) (h : n + s.length < columnLimit) :
    s.foldlM (next tab) n = .ok (n + s.length) := by
  induction s generalizing n with
  | nil => rfl
  | cons c s ih =>
    rw [List.length_cons] at h
    have hstep : next tab n c = .ok (n + 1) :=
      next_eq_succ (fun hc => ht (hc ▸ List.mem_cons_self)) (by omega)
    rw [List.foldlM_cons, hstep, List.length_cons]
    exact (ih (fun hs => ht (List.mem_cons_of_mem c hs)) (by omega)).trans (congrArg Except.ok (by omega))

theorem count_eq_length {tab : Nat} {s : List Char} (ht : '\t' ∈ s → tab = 1) (h : s.length < columnLimit) :
    count tab s = .ok s.length := by
  have hs : s.foldlM (next tab) 0 = .ok (0 + s.length) := foldlM_next ht (by omega)
  rwa [Nat.zero_add] at hs

end Column

namespace Line

theorem exists_of_mem_numberFrom {k n : Nat} {ls : List (List Char)} {l : Line} (h : l ∈ numberFrom k n ls) :
    ∃ above x below, ls = above ++ x :: below ∧
      l = ⟨k + above.length, n + byteLength above.flatten, chomp x⟩ := by
  induction ls generalizing k n with
  | nil => cases h
  | cons x ls ih =>
    rcases List.mem_cons.1 h with rfl | h
    · exact ⟨[], x, ls, rfl, rfl⟩
    · obtain ⟨above, y, below, rfl, rfl⟩ := ih h
      refine ⟨x :: above, y, below, rfl, ?_⟩
      rw [List.flatten_cons, byteLength_append, List.length_cons, Nat.add_assoc, Nat.add_assoc, Nat.add_comm 1]

theorem start_add_le_stop {l : Line} {p q : List Char} (hp : l.text = p ++ q) : l.start + byteLength p ≤ l.stop := by
  rw [stop, hp, byteLength_append]
  omega

end Line

namespace Document

variable {d : Document} {l : Line} {p q : List Char}

theorem exists_line_text (hl : l ∈ d.lines) :
    ∃ u v, d.text = u ++ (l.text ++ v) ∧ l.start = byteLength u ∧ AtLineStart u := by
  rw [d.lines_eq, Line.ofText] at hl
  obtain ⟨above, x, below, hsplit, rfl⟩ := Line.exists_of_mem_numberFrom hl
  obtain ⟨v, hv⟩ := Line.chomp_isPrefix x
  refine ⟨above.flatten, v ++ below.flatten, ?_, Nat.zero_add _, (Line.split_eq_append above hsplit).1⟩
  rw [← Line.flatten_split d.text, hsplit, List.flatten_append, List.flatten_cons,
    ← List.append_assoc (Line.chomp x), hv]

theorem exists_text_of_mem_lines (hl : l ∈ d.lines) : ∃ u v, d.text = u ++ (l.text ++ v) ∧ l.start = byteLength u := by
  obtain ⟨u, v, htext, hstart, -⟩ := exists_line_text hl
  exact ⟨u, v, htext, hstart⟩

theorem stop_le_size (hl : l ∈ d.lines) : l.stop ≤ d.size := by
  obtain ⟨u, v, htext, hstart⟩ := exists_text_of_mem_lines hl
  rw [d.size_eq, htext, Line.stop, hstart, byteLength_append, byteLength_append]
  omega

theorem lineAt_append (hl : l ∈ d.lines) (hp : l.text = p ++ q) : d.lineAt (l.start + byteLength p) = .ok l := by
  obtain ⟨u, v, htext, hstart⟩ := exists_text_of_mem_lines hl
  have hsize := stop_le_size hl
  have hle := Line.start_add_le_stop hp
  have hcut : isBoundary (l.start + byteLength p) d.text = true := by
    rw [← isSome_cut?, htext, hp, hstart, ← byteLength_append, List.append_assoc, ← List.append_assoc u, cut?_append]
    rfl
  rw [lineAt, Nat.min_eq_left (Nat.le_trans hle hsize), hcut,
    lineHolding_eq hl (Nat.le_add_right _ _) hle (Nat.le_trans hle hsize)]
  rfl

theorem column_of_lineAt {n : Nat} (h : d.lineAt n = .ok l) (hp : l.text = p ++ q)
    (hn : min n l.stop = l.start + byteLength p) : d.column n = Column.count d.tabSize p := by
  have hbefore : l.before (min n l.stop - l.start) = p := by
    rw [hn, Nat.add_sub_cancel_left]
    exact front_append hp rfl
  rw [column, h]
  exact congrArg _ hbefore

theorem column_append (hl : l ∈ d.lines) (hp : l.text = p ++ q) :
    d.column (l.start + byteLength p) = Column.count d.tabSize p :=
  column_of_lineAt (lineAt_append hl hp) hp (Nat.min_eq_left (Line.start_add_le_stop hp))

theorem lineIndent_of_lineAt {n : Nat} (h : d.lineAt n = .ok l) :
    d.lineIndent n = Column.count d.tabSize l.indentation := by
  rw [lineIndent, h]
  rfl

theorem lineIndent_append (hl : l ∈ d.lines) (hp : l.text = p ++ q) :
    d.lineIndent (l.start + byteLength p) = Column.count d.tabSize l.indentation :=
  lineIndent_of_lineAt (lineAt_append hl hp)

end Document

end LosslessYaml
