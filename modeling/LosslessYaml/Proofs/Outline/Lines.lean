import LosslessYaml.Proofs.Outline.Value
import LosslessYaml.Proofs.Text.Holding
import LosslessYaml.Proofs.Writing.Read

namespace LosslessYaml

namespace Outline

open Text Line
open Writing (Word Shape Head Break spaces anchorText)

def Clean (x : List Char) : Prop := ∀ c ∈ x, isSpace c = true → c = ' '

section Clean

variable {x y : List Char}

theorem Clean.append (hx : Clean x) (hy : Clean y) : Clean (x ++ y) := by
  intro c hc
  rcases List.mem_append.1 hc with hc | hc
  · exact hx c hc
  · exact hy c hc

theorem clean_nil : Clean [] := fun _ h => absurd h List.not_mem_nil

theorem clean_cons {c : Char} (hc : isSpace c = true → c = ' ') (hx : Clean x) : Clean (c :: x) := by
  intro d hd
  rcases List.mem_cons.1 hd with rfl | hd
  · exact hc
  · exact hx d hd

theorem Clean.not_mem (hx : Clean x) {c : Char} (hs : isSpace c = true) (hc : c ≠ ' ') : c ∉ x :=
  fun h => hc (hx c h hs)

theorem clean_spaces (d : Nat) : Clean (spaces d) := fun _ hc _ => List.eq_of_mem_replicate hc

theorem clean_word (w : Word) : Clean w.chars := by
  intro c hc hs
  rw [Token.isSpace_of_isPlain (w.isPlain c hc)] at hs
  cases hs

theorem clean_head {k : Shape} (h : Head k) : Clean h.text := by
  cases h with
  | key w => exact (clean_word w).append (clean_cons (by decide) clean_nil)
  | dash => exact clean_cons (by decide) clean_nil

theorem clean_anchorText (anchor : Option Word) : Clean (anchorText anchor) := by
  cases anchor with
  | none => exact clean_nil
  | some w => exact clean_cons (fun _ => rfl) (clean_cons (by decide) (clean_word w))

end Clean

theorem chomp_break {x : List Char} (hx : Clean x) (e : Break) : chomp (x ++ e.text) = x := by
  induction x with
  | nil => cases e <;> rfl
  | cons c x ih =>
    have hc : c ≠ '\r' := fun h => hx.not_mem (c := '\r') (by decide) (by decide) (by simp [h])
    have hne : x ++ e.text ≠ [] := by cases e <;> simp [Break.text]
    rw [List.cons_append, chomp, ih fun d hd => hx d (List.mem_cons_of_mem c hd)]
    · exact fun _ h => hne h
    · exact fun h _ => hc h

def spots (n : Nat) (s : List Char) : List (Nat × List Char) :=
  (Line.numberFrom 1 n (split s)).map fun l => (l.start, l.text)

theorem map_numberFrom (k n : Nat) (ls : List (List Char)) :
    ((Line.numberFrom k n ls).map fun l => (l.start, l.text)) =
      (Line.numberFrom 1 n ls).map fun l => (l.start, l.text) := by
  induction ls generalizing k n with
  | nil => rfl
  | cons l ls ih =>
    rw [Line.numberFrom, Line.numberFrom, List.map_cons, List.map_cons, ih (k + 1), ih (1 + 1)]

theorem spots_last {x : List Char} (hx : Clean x) (n : Nat) : spots n x = [(n, x)] := by
  have hlf : '\n' ∉ x := hx.not_mem (by decide) (by decide)
  rw [spots, split_of_not_mem hlf, Line.numberFrom, Line.numberFrom, chomp_of_not_mem hlf]
  rfl

theorem spots_line {x : List Char} (hx : Clean x) (n : Nat) (e : Break) (s : List Char) :
    spots n (x ++ (e.text ++ s)) = (n, x) :: spots (n + byteLength (x ++ e.text)) s := by
  have hsplit : split (x ++ (e.text ++ s)) = (x ++ e.text) :: split s := by
    have hlf : '\n' ∉ x := hx.not_mem (by decide) (by decide)
    cases e with
    | lf => exact split_line hlf s
    | crlf =>
      have h := split_line (l := x ++ ['\r']) (by simp [hlf]) s
      simpa [Break.text] using h
  rw [spots, hsplit, Line.numberFrom, List.map_cons, map_numberFrom, chomp_break hx]
  rfl

/-- The lines of a text that starts at `n` are the rows, whatever follows behind its last line. -/
structure Covers (rs : List Row) (n : Nat) (s : List Char) : Prop where
  last : spots n s = rs.map fun r => (r.start, r.text)
  line : ∀ (e : Break) (t : List Char), spots n (s ++ (e.text ++ t)) =
    (rs.map fun r => (r.start, r.text)) ++ spots (n + byteLength (s ++ e.text)) t
  clean : ∀ r ∈ rs, Clean r.text

theorem covers_row {x : List Char} (hx : Clean x) (n : Nat) (role : Role) : Covers [⟨n, x, role⟩] n x :=
  ⟨spots_last hx n, spots_line hx n, List.forall_mem_singleton.2 hx⟩

theorem Covers.append {rs rs' : List Row} {n m : Nat} {s s' : List Char} (h : Covers rs n s) (e : Break)
    (h' : Covers rs' m s') (hm : m = n + byteLength (s ++ e.text)) :
    Covers (rs ++ rs') n (s ++ (e.text ++ s')) := by
  subst hm
  constructor
  · rw [h.line, h'.last, List.map_append]
  · intro e' t
    simp only [List.append_assoc]
    rw [h.line, h'.line, List.map_append, List.append_assoc]
    simp only [byteLength_append, Nat.add_assoc]
  · exact List.forall_mem_append.2 ⟨h.clean, h'.clean⟩

theorem covers_content (d : Nat) {r : Row} (hr : Clean r.text) (ls : List (Break × Word)) :
    Covers (r :: contentRows d r.stop ls) r.start (r.text ++ linesText d ls) := by
  induction ls generalizing r with
  | nil =>
    rw [contentRows, linesText, List.append_nil]
    exact covers_row hr r.start r.role
  | cons l ls ih =>
    have hl := ih (r := ⟨r.stop + byteLength l.1.text, spaces d ++ l.2.chars, .content⟩)
      ((clean_spaces d).append (clean_word l.2))
    have h := (covers_row hr r.start r.role).append l.1 hl (by simp [Row.stop, Nat.add_assoc])
    rw [List.append_assoc] at h
    exact h

mutual

theorem Block.covers {k : Shape} {c : Nat} (n : Nat) {pre : List Char} (hp : Clean pre) :
    ∀ b : Block k c, Covers (b.rows n pre) n (pre ++ b.text)
  | .last h s => by
    have hs := Slot.covers n (hp.append (clean_head h)) s
    rw [List.append_assoc] at hs
    exact hs
  | .more h s e rest => by
    have hs := Slot.covers n (hp.append (clean_head h)) s
    have hrest := Block.covers (n + byteLength (pre ++ h.text ++ s.text ++ e.text)) (clean_spaces c) rest
    have h := hs.append e hrest rfl
    simp only [List.append_assoc] at h
    simp only [Block.rows, Writing.Block.text, List.append_assoc]
    exact h

theorem Slot.covers {k : Shape} {c : Nat} (n : Nat) {pre : List Char} (hp : Clean pre) :
    ∀ s : Slot k c, Covers (s.rows n pre) n (pre ++ s.text)
  | .inline anchor (.word w) =>
    covers_row (hp.append ((clean_anchorText anchor).append (clean_cons (fun _ => rfl) (clean_word w)))) n _
  | .inline anchor (.literal (d := d) _ e w ls) => by
    have hr : Clean (pre ++ (anchorText anchor ++ [' ', '|'])) :=
      hp.append ((clean_anchorText anchor).append (clean_cons (fun _ => rfl) (clean_cons (by decide) clean_nil)))
    have h := covers_content d (r := ⟨n, _, .header⟩) hr ((e, w) :: ls)
    simp only [List.append_assoc] at h
    exact h
  | .nested (d := d) anchor e _ b => by
    have hr := covers_row (hp.append (clean_anchorText anchor)) n (.entry c)
    have hb := Block.covers (n + byteLength (pre ++ anchorText anchor) + byteLength e.text) (clean_spaces d) b
    have h := hr.append e hb (by rw [byteLength_append (pre ++ anchorText anchor), Nat.add_assoc])
    simp only [List.append_assoc] at h
    exact h
  | .compact b => by
    have hb := Block.covers n (hp.append (clean_cons (fun _ => rfl) clean_nil)) b
    rw [List.append_assoc] at hb
    exact hb

end

theorem clean_rows (o : Outline) : ∀ r ∈ o.rows, Clean r.text := (Block.covers 0 clean_nil o.root).clean

def lineBelow (o : Outline) : List (Nat × List Char) :=
  match o.ending with
  | none => []
  | some _ => [(byteLength o.text, [])]

theorem lines_text (o : Outline) (d : Document) (hd : d.text = o.text) :
    (d.lines.map fun l => (l.start, l.text)) = (o.rows.map fun r => (r.start, r.text)) ++ o.lineBelow := by
  have h := Block.covers 0 clean_nil o.root
  rw [List.nil_append] at h
  rw [d.lines_eq, hd, Line.ofText]
  change spots 0 o.text = _
  cases he : o.ending with
  | none =>
    rw [text, lineBelow, he, endingText, List.append_nil, List.append_nil]
    exact h.last
  | some e =>
    have hl := h.line e []
    rw [List.append_nil, spots_last clean_nil, Nat.zero_add] at hl
    simp only [text, lineBelow, he, endingText]
    exact hl

end Outline

end LosslessYaml
