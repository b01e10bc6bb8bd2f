import LosslessYaml.Proofs.Text.Blanks

namespace LosslessYaml

open Text

namespace Column

/-- The first multiple of `tab` beyond `b`. -/
structure NextMultiple (tab b c : Nat) : Prop where
  lt : b < c
  dvd : tab ∣ c
  least : ∀ m, b < m → tab ∣ m → c ≤ m

def Leads (tab b : Nat) (x : Char) (c : Nat) : Prop := if x = '\t' then NextMultiple tab b c else c = b + 1

section Leads

variable {tab b c : Nat} {x : Char} {s p q : List Char}

theorem count_concat (h : count tab p = .ok b) : count tab (p ++ [x]) = next tab b x := by
  rw [count] at h
  rw [count, List.foldlM_append, h]
  exact bind_pure (next tab b x)

variable (htab : 0 < tab)
include htab

theorem nextMultiple_sub_mod (b : Nat) : NextMultiple tab b (b + tab - b % tab) := by
  have hmod := Nat.mod_lt b htab
  have hdiv := Nat.div_add_mod b tab
  have heq : b + tab - b % tab = tab * (b / tab + 1) := by
    rw [Nat.mul_succ]
    omega
  refine ⟨by omega, ⟨b / tab + 1, heq⟩, ?_⟩
  rintro m hlt ⟨k, rfl⟩
  rw [heq]
  exact Nat.mul_le_mul_left tab (Nat.div_lt_of_lt_mul hlt)

theorem exists_next (h : b + (if x = '\t' then tab else 1) < columnLimit) :
    ∃ c, next tab b x = .ok c ∧ Leads tab b x c := by
  rw [next]
  split at h
  · next hx =>
    rw [if_pos hx, if_pos h]
    exact ⟨_, rfl, (if_pos hx).mpr (nextMultiple_sub_mod htab b)⟩
  · next hx =>
    rw [if_neg hx, if_pos h]
    exact ⟨_, rfl, (if_neg hx).mpr rfl⟩

theorem lt_of_next (h : next tab b x = .ok c) : b < c := by
  rw [next] at h
  split at h
  · split at h
    · obtain rfl := Except.ok.inj h
      exact (nextMultiple_sub_mod htab b).lt
    · cases h
  · split at h
    · obtain rfl := Except.ok.inj h
      exact Nat.lt_succ_self b
    · cases h

theorem le_of_foldlM_next (h : s.foldlM (next tab) b = .ok c) : b + s.length ≤ c := by
  induction s generalizing b with
  | nil => exact Nat.le_of_eq (Except.ok.inj h)
  | cons x s ih =>
    rw [List.foldlM_cons] at h
    cases hx : next tab b x with
    | error e =>
      rw [hx] at h
      cases h
    | ok a =>
      rw [hx] at h
      have hlt := lt_of_next htab hx
      have hle := ih h
      rw [List.length_cons]
      omega

theorem exists_count_lt (h : count tab (p ++ q) = .ok c) : ∃ b, count tab p = .ok b ∧ b + q.length ≤ c := by
  rw [count, List.foldlM_append] at h
  cases hp : p.foldlM (next tab) 0 with
  | error e =>
    rw [hp] at h
    cases h
  | ok b =>
    rw [hp] at h
    exact ⟨b, hp, le_of_foldlM_next htab h⟩

theorem eq_of_isPrefix (hpq : p <+: q) (hp : count tab p = .ok c) (hq : count tab q = .ok c) : p = q := by
  obtain ⟨r, rfl⟩ := hpq
  obtain ⟨b, hb, hle⟩ := exists_count_lt htab hq
  obtain rfl := Except.ok.inj (hp.symm.trans hb)
  have hr : r = [] := List.eq_nil_of_length_eq_zero (by omega)
  rw [hr, List.append_nil]

theorem eq_of_count_eq (hps : p <+: s) (hqs : q <+: s) (hp : count tab p = .ok c) (hq : count tab q = .ok c) :
    p = q := by
  rcases List.prefix_or_prefix_of_prefix hps hqs with h | h
  · exact eq_of_isPrefix htab h hp hq
  · exact (eq_of_isPrefix htab h hq hp).symm

end Leads

end Column

namespace Line

theorem indentation_eq_iff {l : Line} {p q : List Char} (h : l.text = p ++ q) :
    l.indentation = p ↔ (∀ x ∈ p, isBlank x = true) ∧ ∀ x ∈ q.head?, isBlank x = false := by
  rw [indentation, h]
  constructor
  · intro hp
    have hq : (p ++ q).dropWhile isBlank = q := by
      have hsplit := List.takeWhile_append_dropWhile (p := isBlank) (l := p ++ q)
      rw [hp] at hsplit
      exact List.append_cancel_left hsplit
    refine ⟨fun x hx => ?_, fun x hx => ?_⟩
    · rw [← hp] at hx
      exact List.all_eq_true.1 List.all_takeWhile x hx
    · have hhead := List.head?_dropWhile_not isBlank (p ++ q)
      rw [hq, hx] at hhead
      exact hhead
  · rintro ⟨hp, hq⟩
    rw [List.takeWhile_append_of_pos hp]
    cases q with
    | nil => rw [List.takeWhile_nil, List.append_nil]
    | cons x q => rw [List.takeWhile_cons_of_neg (by simp [hq x rfl]), List.append_nil]

/-- The blanks at the start of the line end at an offset: nothing else stands in front of it on the line, and no further
blank behind it. An offset inside of the line break counts as the end of the line. -/
def IndentsTo (l : Line) (n : Nat) : Prop :=
  ∃ p q, l.text = p ++ q ∧ min n l.stop = l.start + byteLength p ∧
    (∀ x ∈ p, isBlank x = true) ∧ ∀ x ∈ q.head?, isBlank x = false

end Line

namespace Document

variable {d : Document} {l : Line} {m n : Nat}

theorem exists_front (h : d.lineAt n = .ok l) :
    ∃ p q, l.text = p ++ q ∧ min n l.stop = l.start + byteLength p := by
  rw [lineAt] at h
  split at h
  · next hn =>
    obtain rfl := Except.ok.inj h
    have hmem := d.lineHolding_mem n
    obtain ⟨u, v, htext, hstart⟩ := exists_text_of_mem_lines hmem
    have hsize := stop_le_size hmem
    have hle := (d.holds_lineHolding n).start
    rcases Nat.le_total (min n d.size) (d.lineHolding n).stop with hstop | hstop
    · rw [← isSome_cut?] at hn
      obtain ⟨⟨x, y⟩, hcut⟩ := Option.isSome_iff_exists.1 hn
      obtain ⟨hxy, hx⟩ := eq_append_of_cut? hcut
      obtain ⟨p, q, hpq, rfl, -⟩ := exists_cut (htext.symm.trans hxy) (by omega) (by rw [Line.stop] at hstop; omega)
      rw [byteLength_append] at hx
      exact ⟨p, q, hpq, by omega⟩
    · exact ⟨_, [], (List.append_nil _).symm, by rw [Line.stop] at *; omega⟩
  · cases h

theorem lineAt_of_mem (hl : l ∈ d.lines) (hn : isBoundary n d.text = true) (hstart : l.start ≤ n) (hstop : n ≤ l.stop) :
    d.lineAt n = .ok l := by
  have hsize := Nat.le_trans hstop (stop_le_size hl)
  rw [lineAt, Nat.min_eq_left hsize, if_pos hn, lineHolding_eq hl hstart hstop hsize]

theorem isBoundary_of_column {c : Nat} (h : d.column n = .ok c) : isBoundary (min n d.size) d.text = true := by
  rw [column, lineAt] at h
  split at h
  · assumption
  · cases h

theorem exists_column_lt {c : Nat} (hm : d.lineAt m = .ok l) (hn : d.lineAt n = .ok l) (hmn : min m l.stop < min n l.stop)
    (hc : d.column n = .ok c) : ∃ b, d.column m = .ok b ∧ b < c := by
  obtain ⟨p, q, hp, hmp⟩ := exists_front hm
  obtain ⟨r, t, hr, hnr⟩ := exists_front hn
  obtain ⟨z, rfl⟩ : p <+: r :=
    isPrefix_of_byteLength_le ⟨q, hp.symm⟩ ⟨t, hr.symm⟩ (by omega)
  rw [column_of_lineAt hn hr hnr] at hc
  obtain ⟨b, hb, hle⟩ := Column.exists_count_lt d.tabSize_pos hc
  refine ⟨b, (column_of_lineAt hm hp hmp).trans hb, ?_⟩
  cases z with
  | nil =>
    rw [List.append_nil] at hnr
    omega
  | cons x z =>
    rw [List.length_cons] at hle
    omega

theorem lineIndent_eq_iff {c : Nat} (hn : d.lineAt n = .ok l) (hc : d.column n = .ok c) :
    d.lineIndent n = .ok c ↔ l.IndentsTo n := by
  rw [lineIndent_of_lineAt hn]
  constructor
  · intro hindent
    obtain ⟨p, q, hp, hnp⟩ := exists_front hn
    rw [column_of_lineAt hn hp hnp] at hc
    have heq : l.indentation = p :=
      Column.eq_of_count_eq d.tabSize_pos (List.takeWhile_prefix isBlank) ⟨q, hp.symm⟩ hindent hc
    exact ⟨p, q, hp, hnp, (Line.indentation_eq_iff hp).1 heq⟩
  · rintro ⟨p, q, hp, hnp, hblank⟩
    rw [(Line.indentation_eq_iff hp).2 hblank, ← column_of_lineAt hn hp hnp, hc]

/-- Along a line the columns go up from 0, by one with each character and to the next multiple of the tab size with a
tab, as long as they fit; and the column of an offset is the indentation of its line exactly if the indentation ends
there. -/
theorem column_along_line (hl : l ∈ d.lines) :
    d.column l.start = .ok 0 ∧
      (∀ p x q b, l.text = p ++ x :: q → d.column (l.start + byteLength p) = .ok b →
        b + (if x = '\t' then d.tabSize else 1) < columnLimit →
        ∃ c, d.column (l.start + byteLength (p ++ [x])) = .ok c ∧ Column.Leads d.tabSize b x c) ∧
      (∀ m n c, isBoundary m d.text = true → l.start ≤ m → m < n → n ≤ l.stop → d.column n = .ok c →
        ∃ b, d.column m = .ok b ∧ b < c) ∧
      ∀ n c, d.lineAt n = .ok l → d.column n = .ok c → (d.lineIndent n = .ok c ↔ l.IndentsTo n) := by
  refine ⟨column_append hl (p := []) rfl, ?_, ?_, fun n c hn hc => lineIndent_eq_iff hn hc⟩
  · intro p x q b hp hb hlimit
    obtain ⟨c, hc, hleads⟩ := Column.exists_next d.tabSize_pos hlimit
    rw [column_append hl hp] at hb
    refine ⟨c, ?_, hleads⟩
    rw [column_append hl (hp.trans (List.append_cons p x q)), Column.count_concat hb, hc]
  · intro m n c hm hstart hmn hstop hc
    have hn := isBoundary_of_column hc
    rw [Nat.min_eq_left (Nat.le_trans hstop (stop_le_size hl))] at hn
    have hlm := lineAt_of_mem hl hm hstart (by omega)
    have hln := lineAt_of_mem hl hn (by omega) hstop
    exact exists_column_lt hlm hln (by omega) hc

theorem column_along_line_tab :
    ⟨1, 0, [' ', '\t', 'é']⟩ ∈ (ofText " \té\r\n".toList).lines ∧
      (ofText " \té\r\n".toList).column 1 = .ok 1 ∧
      (∃ c, (ofText " \té\r\n".toList).column 2 = .ok c ∧ Column.NextMultiple 4 1 c) ∧
      (∃ b, (ofText " \té\r\n".toList).column 2 = .ok b ∧ b < 5) ∧
      Line.IndentsTo ⟨1, 0, [' ', '\t', 'é']⟩ 2 ∧ ¬ Line.IndentsTo ⟨1, 0, [' ', '\t', 'é']⟩ 5 := by
  have hl : ⟨1, 0, [' ', '\t', 'é']⟩ ∈ (ofText " \té\r\n".toList).lines := by decide +kernel
  obtain ⟨-, hnext, hlt, hindent⟩ := column_along_line hl
  have hone : (ofText " \té\r\n".toList).column 1 = .ok 1 := rfl
  refine ⟨hl, hone, ?_, ?_, ?_, ?_⟩
  · obtain ⟨c, hc, hleads⟩ := hnext [' '] '\t' ['é'] 1 rfl hone (by decide)
    exact ⟨c, hc, (if_pos rfl).mp hleads⟩
  · exact hlt 2 4 5 (by decide +kernel) (by decide) (by decide) (by decide +kernel) rfl
  · exact (hindent 2 4 rfl rfl).1 rfl
  · exact fun h => nomatch ((hindent 5 5 rfl rfl).2 h : Except.ok 4 = Except.ok 5)

end Document

end LosslessYaml
