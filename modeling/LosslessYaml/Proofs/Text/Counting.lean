import LosslessYaml.Proofs.Text.Blanks
import LosslessYaml.Proofs.Text.Numbering

namespace LosslessYaml

open Text

namespace Line

/-- Where the line starts that has `k` line feeds in front of it. The end of the text if there are not so many. -/
def offsetOf : Nat → List Char → Nat
  | 0, _ => 0
  | _ + 1, [] => 0
  | k + 1, c :: cs => c.utf8Size + offsetOf (if c = '\n' then k else k + 1) cs

@[simp] theorem offsetOf_zero (s : List Char) : offsetOf 0 s = 0 := by
  cases s <;> rfl

theorem offsetOf_of_not_mem {l : List Char} (h : '\n' ∉ l) (k : Nat) : offsetOf (k + 1) l = byteLength l := by
  induction l with
  | nil => rfl
  | cons c l ih =>
    simp only [List.mem_cons, not_or] at h
    rw [offsetOf, if_neg (Ne.symm h.1), ih h.2, byteLength_cons]

theorem offsetOf_line {l : List Char} (h : '\n' ∉ l) (k : Nat) (s : List Char) :
    offsetOf (k + 1) (l ++ '\n' :: s) = byteLength (l ++ ['\n']) + offsetOf k s := by
  induction l with
  | nil => simp [offsetOf]
  | cons c l ih =>
    simp only [List.mem_cons, not_or] at h
    rw [List.cons_append, offsetOf, if_neg (Ne.symm h.1), ih h.2, List.cons_append, byteLength_cons, Nat.add_assoc]

theorem offsetOf_split {s : List Char} {above below : List (List Char)} (h : split s = above ++ below) :
    offsetOf above.length s = byteLength above.flatten := by
  induction s using Line.induct generalizing above with
  | last l hl =>
    rw [split_of_not_mem hl] at h
    rcases List.singleton_eq_append_iff.1 h with ⟨rfl, -⟩ | ⟨rfl, -⟩
    · exact offsetOf_zero l
    · rw [List.length_singleton, offsetOf_of_not_mem hl, List.flatten_singleton]
  | line l s hl ih =>
    rw [split_line hl] at h
    rcases List.cons_eq_append_iff.1 h with ⟨rfl, -⟩ | ⟨above, rfl, hs⟩
    · exact offsetOf_zero _
    · rw [List.length_cons, offsetOf_line hl, ih hs, List.flatten_cons, byteLength_append (l ++ ['\n'])]

def stripBreak (s : List Char) : List Char :=
  if s.getLast? = some '\n' then
    if s.dropLast.getLast? = some '\r' then s.dropLast.dropLast else s.dropLast
  else s

theorem stripBreak_eq_chomp (s : List Char) : stripBreak s = chomp s := by
  rw [stripBreak]
  split
  · next h =>
    obtain ⟨x, rfl⟩ := List.getLast?_eq_some_iff.1 h
    rw [List.dropLast_concat]
    split
    · next hr =>
      obtain ⟨y, rfl⟩ := List.getLast?_eq_some_iff.1 hr
      rw [List.dropLast_concat, List.append_assoc]
      exact (chomp_crlf y).symm
    · next hr => exact (chomp_feed hr).symm
  · next h =>
    rcases chomp_cases s with hs | hs | hs
    · exact hs
    · exact absurd (hs ▸ List.getLast?_concat) h
    · rw [hs, List.getLast?_append] at h
      exact absurd rfl h

theorem count_flatten {s : List Char} {above below : List (List Char)} (h : split s = above ++ below)
    (hb : below ≠ []) : above.flatten.count '\n' = above.length := by
  induction s using Line.induct generalizing above with
  | last l hl =>
    rw [split_of_not_mem hl] at h
    rcases List.singleton_eq_append_iff.1 h with ⟨rfl, -⟩ | ⟨-, rfl⟩
    · rfl
    · exact absurd rfl hb
  | line l s hl ih =>
    rw [split_line hl] at h
    rcases List.cons_eq_append_iff.1 h with ⟨rfl, -⟩ | ⟨above, rfl, hs⟩
    · rfl
    · rw [List.flatten_cons, List.count_append, ih hs, List.count_append, List.count_eq_zero_of_not_mem hl,
        List.length_cons, Nat.zero_add, Nat.add_comm]
      rfl

end Line

namespace Document

open Line

def feedsBefore (d : Document) (n : Nat) : Except Fault Nat :=
  match cut? n d.text with
  | none => .error .insideCharacter
  | some (u, _) => .ok (u.count '\n')

def lineByIndex (d : Document) (i : Nat) : Except Fault Line := do
  let start := offsetOf i d.text
  let next := if i + 1 < d.text.count '\n' + 1 then offsetOf (i + 1) d.text else d.size
  return ⟨i + 1, start, stripBreak (← d.slice start next)⟩

variable {d : Document} {i k n : Nat} {l : Line} {u v : List Char}

theorem lineByIndex_eq (h : d.line? (i + 1) = some l) : d.lineByIndex i = .ok l := by
  obtain ⟨above, x, below, hsplit, rfl⟩ := exists_split (mem_of_line? h)
  obtain rfl : above.length = i := Nat.succ.inj (number_of_line? h)
  have hstart := offsetOf_split hsplit
  have htext : d.text = above.flatten ++ x ++ below.flatten := by
    rw [← flatten_split d.text, hsplit, List.flatten_append, List.flatten_cons, List.append_assoc]
  have hnext : (if above.length + 1 < d.text.count '\n' + 1 then offsetOf (above.length + 1) d.text else d.size) =
      byteLength (above.flatten ++ x) := by
    rw [← length_split, hsplit, List.length_append, List.length_cons]
    split
    · rw [List.append_cons] at hsplit
      have hoffset := offsetOf_split hsplit
      rwa [List.length_append, List.length_singleton, List.flatten_append, List.flatten_singleton] at hoffset
    · obtain rfl : below = [] := List.eq_nil_of_length_eq_zero (by omega)
      rw [d.size_eq, htext, List.flatten_nil, List.append_nil]
  rw [lineByIndex, hnext, hstart, slice_append htext, ← stripBreak_eq_chomp]
  rfl

theorem exists_front_of_lineHolding (hd : d.text = u ++ v) : ∃ above x below y,
    split d.text = above ++ x :: below ∧ (d.lineHolding (byteLength u)).number = above.length + 1 ∧
      u = above.flatten ++ y ∧ '\n' ∉ y := by
  have hsize : min (byteLength u) d.size = byteLength u := by
    rw [d.size_eq, hd, byteLength_append]
    exact Nat.min_eq_left (Nat.le_add_right _ _)
  have hcovers := d.covers_lineHolding (byteLength u)
  obtain ⟨above, x, below, hsplit, hline⟩ := exists_split (d.lineHolding_mem (byteLength u))
  rw [hsize, hline] at hcovers
  have hfront : u <+: d.text := ⟨v, hd.symm⟩
  have htext : d.text = above.flatten ++ (x ++ below.flatten) := by
    rw [← flatten_split d.text, hsplit, List.flatten_append, List.flatten_cons]
  obtain ⟨y, rfl⟩ := isPrefix_of_byteLength_le ⟨_, htext.symm⟩ hfront hcovers.start
  refine ⟨above, x, below, y, hsplit, by rw [hline], rfl, ?_⟩
  rw [htext] at hfront
  have hy := (List.prefix_append_right_inj _).1 hfront
  rcases (split_eq_append above hsplit).2 with ⟨rfl, hx⟩ | ⟨hbelow, w, hw, rfl⟩
  · rw [List.flatten_nil, List.append_nil] at hy
    exact fun h => hx (hy.subset h)
  · -- the offset stands in front of the next line, and so in front of the line feed
    obtain ⟨z, below, rfl⟩ := List.exists_cons_of_ne_nil hbelow
    have hnext := line?_of_split (hsplit.trans (List.append_cons above (w ++ ['\n']) (z :: below)))
    rw [List.length_append, List.length_singleton] at hnext
    have hlt := hcovers.next _ hnext
    have hlen : byteLength (above ++ [w ++ ['\n']]).flatten = byteLength above.flatten + byteLength w + 1 := by
      rw [List.flatten_append, List.flatten_singleton, byteLength_append, byteLength_append, ← Nat.add_assoc]
      rfl
    dsimp only at hlt
    rw [hlen, byteLength_append] at hlt
    have hw' : w <+: w ++ ['\n'] ++ (z :: below).flatten := by
      rw [List.append_assoc]
      exact List.prefix_append _ _
    exact fun h => hw ((isPrefix_of_byteLength_le hy hw' (by omega)).subset h)

theorem number_lineHolding (hd : d.text = u ++ v) :
    (d.lineHolding (byteLength u)).number = u.count '\n' + 1 := by
  obtain ⟨above, x, below, y, hsplit, hnumber, rfl, hy⟩ := exists_front_of_lineHolding hd
  rw [hnumber, List.count_append, count_flatten hsplit (List.cons_ne_nil _ _), List.count_eq_zero_of_not_mem hy,
    Nat.add_zero]

theorem lineAt_eq_lineByIndex (d : Document) (n : Nat) :
    d.lineAt n = d.feedsBefore (min n d.size) >>= d.lineByIndex := by
  rw [lineAt, feedsBefore, ← isSome_cut?]
  cases h : cut? (min n d.size) d.text with
  | none => rfl
  | some p =>
    obtain ⟨htext, hu⟩ := eq_append_of_cut? h
    have hline : d.lineHolding n = d.lineHolding (byteLength p.1) := by
      rw [hu, lineHolding, lineHolding, Nat.min_assoc, Nat.min_self]
    have hnumber := line?_number (d.lineHolding_mem (byteLength p.1))
    rw [number_lineHolding htext] at hnumber
    rw [hline]
    exact (lineByIndex_eq hnumber).symm

theorem line?_eq_lineByIndex (d : Document) (k : Nat) :
    (d.line? k).map .ok = if 1 ≤ k ∧ k ≤ d.text.count '\n' + 1 then some (d.lineByIndex (k - 1)) else none := by
  rw [← length_split, ← lineCount_eq]
  split
  · next h =>
    obtain ⟨l, hl⟩ := Option.isSome_iff_exists.1 ((d.isSome_line? k).2 h)
    rw [hl, Option.map_some, lineByIndex_eq (by rwa [Nat.sub_add_cancel h.1])]
  · next h =>
    rw [← isSome_line?, Option.not_isSome_iff_eq_none] at h
    rw [h, Option.map_none]

end Document

end LosslessYaml
