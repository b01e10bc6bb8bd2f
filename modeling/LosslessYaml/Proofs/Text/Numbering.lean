import LosslessYaml.Proofs.Text.Column
import LosslessYaml.Proofs.Text.Place

namespace LosslessYaml

open Text

namespace Line

theorem length_split (s : List Char) : (split s).length = s.count '\n' + 1 := by
  induction s using Line.induct with
  | last l hl =>
    rw [split_of_not_mem hl, List.count_eq_zero_of_not_mem hl]
    rfl
  | line l s hl ih =>
    rw [split_line hl, List.length_cons, ih, List.count_append, List.count_eq_zero_of_not_mem hl, List.count_cons_self]
    omega

theorem length_numberFrom (k n : Nat) (ls : List (List Char)) : (numberFrom k n ls).length = ls.length := by
  induction ls generalizing k n with
  | nil => rfl
  | cons l ls ih => rw [numberFrom, List.length_cons, ih, List.length_cons]

theorem number_of_getElem? {i k n : Nat} {ls : List (List Char)} {l : Line} (h : (numberFrom k n ls)[i]? = some l) :
    l.number = k + i := by
  induction ls generalizing i k n with
  | nil => cases h
  | cons x ls ih =>
    cases i with
    | zero =>
      cases h
      rfl
    | succ i =>
      rw [numberFrom, List.getElem?_cons_succ] at h
      rw [ih h]
      omega

theorem exists_chomp {w : List Char} (hw : '\n' ∉ w) :
    ∃ x b, w ++ ['\n'] = x ++ b ∧ chomp (x ++ b) = x ∧ FirstBreak (x ++ b) x b := by
  obtain ⟨x, b, hb⟩ := exists_firstBreak (t := w ++ ['\n']) (by simp)
  obtain ⟨t, ht⟩ := hb.text
  have hnil : t = [] := by
    -- behind the first line break there would be a second line feed
    rcases List.eq_nil_or_concat t with rfl | ⟨v, c, rfl⟩
    · rfl
    · rw [List.concat_eq_append, ← List.append_assoc] at ht
      obtain ⟨hv, -⟩ := List.append_inj' ht rfl
      apply absurd _ hw
      rw [← hv]
      rcases hb.feed with rfl | ⟨rfl, -⟩ <;> simp
  rw [hnil, List.append_nil] at ht
  rw [← ht] at hb
  exact ⟨x, b, ht.symm, hb.chomp (v := []) nofun, hb⟩

end Line

namespace Document

open Line

/-- What stands on the lines of a document and between them. -/
structure Numbered (d : Document) : Prop where
  count : d.lineCount = d.text.count '\n' + 1
  isSome : ∀ k, (d.line? k).isSome = true ↔ 1 ≤ k ∧ k ≤ d.lineCount
  number : ∀ k l, d.line? k = some l → l.number = k
  first : ∀ l, d.line? 1 = some l → l.start = 0
  text : ∀ k l, d.line? k = some l → '\n' ∉ l.text ∧ d.slice l.start l.stop = .ok l.text
  next : ∀ k l m, d.line? k = some l → d.line? (k + 1) = some m →
    ∃ b, m.start = l.stop + byteLength b ∧ d.slice l.stop m.start = .ok b ∧ FirstBreak (l.text ++ b) l.text b
  last : ∀ l, d.line? d.lineCount = some l → l.stop = d.size

/-- An offset is not in front of the line with the given number, and in front of the next one. -/
structure Covers (d : Document) (n k : Nat) (l : Line) : Prop where
  start : l.start ≤ n
  next : ∀ m, d.line? (k + 1) = some m → n < m.start

variable {d : Document} {j k n : Nat} {l m : Line}

theorem line?_of_split {above below : List (List Char)} {x : List Char} (h : split d.text = above ++ x :: below) :
    d.line? (above.length + 1) = some ⟨above.length + 1, byteLength above.flatten, chomp x⟩ := by
  have hlines : d.lines = Line.numberFrom 1 0 above ++ ⟨above.length + 1, byteLength above.flatten, chomp x⟩ ::
      Line.numberFrom (above.length + 1 + 1) (byteLength above.flatten + byteLength x) below := by
    rw [d.lines_eq, Line.ofText, h, numberFrom_append, Line.numberFrom, Nat.zero_add, Nat.add_comm 1]
  rw [line?, if_neg (Nat.succ_ne_zero _), hlines, Nat.add_sub_cancel, ← length_numberFrom 1 0 above,
    List.getElem?_append_right (Nat.le_refl _), Nat.sub_self]
  rfl

theorem lineCount_eq (d : Document) : d.lineCount = (split d.text).length := by
  rw [lineCount, d.lines_eq, Line.ofText, length_numberFrom]

theorem mem_of_line? (h : d.line? k = some l) : l ∈ d.lines := by
  rw [line?] at h
  split at h
  · cases h
  · exact List.mem_of_getElem? h

theorem exists_split (h : l ∈ d.lines) : ∃ above x below, split d.text = above ++ x :: below ∧
    l = ⟨above.length + 1, byteLength above.flatten, chomp x⟩ := by
  rw [d.lines_eq, Line.ofText] at h
  obtain ⟨above, x, below, hsplit, rfl⟩ := exists_of_mem_numberFrom h
  rw [Nat.zero_add, Nat.add_comm 1]
  exact ⟨above, x, below, hsplit, rfl⟩

theorem line?_number (h : l ∈ d.lines) : d.line? l.number = some l := by
  obtain ⟨above, x, below, hsplit, rfl⟩ := exists_split h
  exact line?_of_split hsplit

theorem isSome_line? (d : Document) (k : Nat) : (d.line? k).isSome = true ↔ 1 ≤ k ∧ k ≤ d.lineCount := by
  rw [line?, lineCount]
  split
  · next hk => simp [hk]
  · next hk =>
    rw [Option.isSome_iff_ne_none, ne_eq, List.getElem?_eq_none_iff]
    omega

theorem bounds_of_line? (h : d.line? k = some l) : 1 ≤ k ∧ k ≤ d.lineCount := by
  rw [← isSome_line?, h, Option.isSome_some]

theorem number_of_line? (h : d.line? k = some l) : l.number = k := by
  rw [line?, d.lines_eq, Line.ofText] at h
  split at h
  · cases h
  · rw [number_of_getElem? h]
    omega

theorem not_mem_text (h : l ∈ d.lines) : '\n' ∉ l.text := by
  obtain ⟨above, x, below, hsplit, rfl⟩ := exists_split h
  rcases (split_eq_append above hsplit).2 with ⟨-, hx⟩ | ⟨-, w, hw, hx⟩
  · exact fun hmem => hx ((chomp_isPrefix x).subset hmem)
  · obtain ⟨y, b, hy, hchomp, hb⟩ := exists_chomp hw
    rw [hx, hy, hchomp]
    exact hb.before

theorem slice_line (h : l ∈ d.lines) : d.slice l.start l.stop = .ok l.text := by
  obtain ⟨u, v, htext, hstart⟩ := exists_text_of_mem_lines h
  rw [← List.append_assoc] at htext
  rw [Line.stop, hstart, ← byteLength_append]
  exact slice_append htext

theorem exists_break (hl : d.line? k = some l) (hm : d.line? (k + 1) = some m) :
    ∃ b, m.start = l.stop + byteLength b ∧ d.slice l.stop m.start = .ok b ∧ FirstBreak (l.text ++ b) l.text b := by
  obtain ⟨above, x, below, hsplit, rfl⟩ := exists_split (mem_of_line? hl)
  obtain rfl := number_of_line? hl
  rcases (split_eq_append above hsplit).2 with ⟨rfl, -⟩ | ⟨hbelow, w, hw, hx⟩
  · -- the last line has none behind it
    have hcount := (bounds_of_line? hm).2
    rw [lineCount_eq, hsplit, List.length_append, List.length_singleton] at hcount
    dsimp only at hcount
    omega
  · obtain ⟨y, b, hy, hchomp, hb⟩ := exists_chomp hw
    obtain rfl := hx.trans hy
    obtain ⟨z, below, rfl⟩ := List.exists_cons_of_ne_nil hbelow
    have hnext := line?_of_split (hsplit.trans (List.append_cons above (y ++ b) (z :: below)))
    rw [List.length_append, List.length_singleton] at hnext
    obtain rfl := Option.some.inj (hm.symm.trans hnext)
    have htext : d.text = above.flatten ++ y ++ b ++ (z :: below).flatten := by
      rw [← flatten_split d.text, hsplit, List.flatten_append, List.flatten_cons]
      simp only [List.append_assoc]
    have hstop : byteLength (above ++ [y ++ b]).flatten = byteLength (above.flatten ++ y ++ b) := by simp
    simp only [Line.stop, hchomp, ← byteLength_append, hstop]
    exact ⟨b, rfl, slice_append htext, hb⟩

theorem stop_last (h : d.line? d.lineCount = some l) : l.stop = d.size := by
  obtain ⟨above, x, below, hsplit, rfl⟩ := exists_split (mem_of_line? h)
  have hnumber := number_of_line? h
  rw [lineCount_eq, hsplit, List.length_append, List.length_cons] at hnumber
  obtain rfl : below = [] := List.eq_nil_of_length_eq_zero (by dsimp only at hnumber; omega)
  rcases (split_eq_append above hsplit).2 with ⟨-, hx⟩ | ⟨hne, -⟩
  · rw [d.size_eq, ← flatten_split d.text, hsplit, Line.stop, chomp_of_not_mem hx, ← byteLength_append]
    simp
  · exact absurd rfl hne

theorem numbered (d : Document) : d.Numbered where
  count := by rw [lineCount_eq, length_split]
  isSome := isSome_line? d
  number _ _ := number_of_line?
  first l h := by
    obtain ⟨above, x, below, -, rfl⟩ := exists_split (mem_of_line? h)
    have hnumber := number_of_line? h
    obtain rfl : above = [] := List.eq_nil_of_length_eq_zero (by dsimp only at hnumber; omega)
    rfl
  text _ _ h := ⟨not_mem_text (mem_of_line? h), slice_line (mem_of_line? h)⟩
  next _ _ _ := exists_break
  last _ := stop_last

theorem stop_lt_start (hl : d.line? j = some l) (hm : d.line? k = some m) (h : j < k) : l.stop < m.start := by
  rw [line?] at hl hm
  split at hl
  · cases hl
  · split at hm
    · cases hm
    · obtain ⟨hj, rfl⟩ := List.getElem?_eq_some_iff.1 hl
      obtain ⟨hk, rfl⟩ := List.getElem?_eq_some_iff.1 hm
      exact List.pairwise_iff_getElem.1 d.pairwise_lines _ _ hj hk (by omega)

theorem Covers.le (h : d.Covers n j l) (hm : d.line? k = some m) (hn : m.start ≤ n) : k ≤ j := by
  apply Decidable.byContradiction
  intro hlt
  have hk := bounds_of_line? hm
  obtain ⟨x, hx⟩ := Option.isSome_iff_exists.1 ((isSome_line? d (j + 1)).2 (by omega))
  have hnext := h.next x hx
  rcases Nat.lt_or_ge (j + 1) k with hjk | hjk
  · have hstop := stop_lt_start hx hm hjk
    have hstart := x.start_le_stop
    omega
  · obtain rfl : k = j + 1 := by omega
    obtain rfl := Option.some.inj (hm.symm.trans hx)
    omega

theorem covers_lineHolding (d : Document) (n : Nat) :
    d.Covers (min n d.size) (d.lineHolding n).number (d.lineHolding n) := by
  have h := d.holds_lineHolding n
  refine ⟨h.start, fun m hm => ?_⟩
  apply Decidable.byContradiction
  intro hle
  have hlt := stop_lt_start (line?_number h.mem) hm (Nat.lt_succ_self _)
  have hstop := (d.lineHolding n).start_le_stop
  have hmstop := m.start_le_stop
  rcases h.last m (mem_of_line? hm) (by omega) with rfl | hbefore
  · omega
  · omega

/-- The lines of a document are numbered from the start of its text to the end, and looking up the line of an offset
gives the one line that covers it, which is also found by its number. -/
theorem lineAt_numbered (d : Document) : d.Numbered ∧
    ∀ n, isBoundary (min n d.size) d.text = true → ∃ l, d.lineAt n = .ok l ∧ d.line? l.number = some l ∧
      ∀ k m, d.line? k = some m → (d.Covers (min n d.size) k m ↔ m = l) := by
  refine ⟨d.numbered, fun n hn => ⟨d.lineHolding n, by rw [lineAt, if_pos hn], ?_, fun k m hm => ?_⟩⟩
  · exact line?_number (d.lineHolding_mem n)
  · have hl := line?_number (d.lineHolding_mem n)
    have hcovers := d.covers_lineHolding n
    constructor
    · intro h
      have hle := h.le hl hcovers.start
      have hge := hcovers.le hm h.start
      obtain rfl := Nat.le_antisymm hle hge
      exact Option.some.inj (hm.symm.trans hl)
    · rintro rfl
      rw [← number_of_line? hm]
      exact hcovers

theorem lineAt_numbered_in_break :
    isBoundary (min 2 (ofText "a\r\né\rb\n".toList).size) (ofText "a\r\né\rb\n".toList).text = true ∧
      (ofText "a\r\né\rb\n".toList).lineAt 2 = .ok ⟨1, 0, ['a']⟩ ∧
      (ofText "a\r\né\rb\n".toList).line? 1 = some ⟨1, 0, ['a']⟩ ∧
      ∀ k m, (ofText "a\r\né\rb\n".toList).line? k = some m →
        ((ofText "a\r\né\rb\n".toList).Covers 2 k m ↔ m = ⟨1, 0, ['a']⟩) := by
  have hn : isBoundary (min 2 (ofText "a\r\né\rb\n".toList).size) (ofText "a\r\né\rb\n".toList).text = true := by
    decide +kernel
  have hsize : min 2 (ofText "a\r\né\rb\n".toList).size = 2 := by decide +kernel
  have hline : (ofText "a\r\né\rb\n".toList).lineAt 2 = .ok ⟨1, 0, ['a']⟩ := rfl
  obtain ⟨l, hl, hnumber, hcovers⟩ := (lineAt_numbered (ofText "a\r\né\rb\n".toList)).2 2 hn
  obtain rfl := Except.ok.inj (hline.symm.trans hl)
  rw [hsize] at hcovers
  exact ⟨hn, hline, hnumber, hcovers⟩

end Document

end LosslessYaml
