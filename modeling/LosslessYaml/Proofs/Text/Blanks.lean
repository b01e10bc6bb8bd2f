import LosslessYaml.Proofs.Text.Column
import LosslessYaml.Proofs.Token.Edge

namespace LosslessYaml

namespace Text

theorem eq_of_isPrefix {u x : List Char} (h : x <+: u) (hle : byteLength u ≤ byteLength x) : x = u := by
  obtain ⟨v, rfl⟩ := h
  cases v with
  | nil => rw [List.append_nil]
  | cons c v =>
    have hc := c.utf8Size_pos
    rw [byteLength_append, byteLength_cons] at hle
    omega

theorem isPrefix_of_byteLength_le {s u x : List Char} (hu : u <+: s) (hx : x <+: s)
    (h : byteLength u ≤ byteLength x) : u <+: x := by
  rcases List.prefix_or_prefix_of_prefix hu hx with hux | hxu
  · exact hux
  · obtain rfl := eq_of_isPrefix hxu h
    exact List.prefix_refl x

theorem exists_cut {u p r x y : List Char} (h : u ++ (p ++ r) = x ++ y) (hu : byteLength u ≤ byteLength x)
    (hp : byteLength x ≤ byteLength u + byteLength p) : ∃ q q', p = q ++ q' ∧ x = u ++ q ∧ y = q' ++ r := by
  obtain ⟨q, rfl⟩ := isPrefix_of_byteLength_le (List.prefix_append u (p ++ r)) (h ▸ List.prefix_append x y) hu
  rw [List.append_assoc, List.append_cancel_left_eq] at h
  rw [byteLength_append] at hp
  obtain ⟨q', rfl⟩ := isPrefix_of_byteLength_le (h ▸ List.prefix_append q y) (List.prefix_append p r) (by omega)
  rw [List.append_assoc, List.append_cancel_left_eq] at h
  exact ⟨q, q', rfl, rfl, h.symm⟩

theorem trimStart_blanks {p : List Char} (hp : ∀ x ∈ p, isBlank x = true) (r : List Char) :
    trimStart (p ++ r) = trimStart r :=
  List.dropWhile_append_of_pos fun x hx => isSpace_of_isBlank (hp x hx)

theorem byteLength_blanks {p : List Char} (hp : ∀ x ∈ p, isBlank x = true) : byteLength p = p.length := by
  induction p with
  | nil => rfl
  | cons c p ih =>
    obtain ⟨hc, hp⟩ := List.forall_mem_cons.1 hp
    have hsize : c.utf8Size = 1 := by
      simp only [isBlank, Bool.or_eq_true, decide_eq_true_eq] at hc
      rcases hc with rfl | rfl <;> rfl
    rw [byteLength_cons, ih hp, hsize, List.length_cons]
    omega

end Text

theorem Document.textAfter_blanks {d : Document} {l : Line} {p q : List Char} (hl : l ∈ d.lines)
    (htext : l.text = p ++ q) (hp : ∀ x ∈ p, Text.isBlank x = true) {pos : Nat} (hpos : l.start ≤ pos)
    (hle : pos ≤ l.start + Text.byteLength p) :
    ∃ p', (∀ x ∈ p', Text.isBlank x = true) ∧ d.textAfter pos = .ok (p' ++ q) := by
  have hmem {x : Char} (hx : x ∈ p.drop (pos - l.start)) : Text.isBlank x = true := hp x (List.mem_of_mem_drop hx)
  have hsplit : l.text = p.take (pos - l.start) ++ (p.drop (pos - l.start) ++ q) := by
    rw [htext, ← List.append_assoc, List.take_append_drop]
  have hlen : pos = l.start + Text.byteLength (p.take (pos - l.start)) := by
    rw [Text.byteLength_blanks hp] at hle
    rw [Text.byteLength_blanks fun x hx => hp x (List.mem_of_mem_take hx), List.length_take]
    omega
  have hafter : l.after (min pos l.stop - l.start) = p.drop (pos - l.start) ++ q := by
    have hstop := Line.start_add_le_stop hsplit
    rw [← hlen] at hstop
    rw [Nat.min_eq_left hstop, Line.after, hsplit]
    nth_rewrite 1 [hlen]
    rw [Nat.add_sub_cancel_left, Text.cut?_append]
    rfl
  refine ⟨p.drop (pos - l.start), fun x => hmem, ?_⟩
  have hline := lineAt_append hl hsplit
  rw [← hlen] at hline
  rw [textAfter, hline, ← hafter]
  rfl

open Text
open Token (textOf)

theorem Token.Unclosed.head? {rest : List Char} (h : Unclosed rest) : ∀ x ∈ rest.head?, x = '\\' := by
  rcases h with rfl | rfl | ⟨cs, rfl⟩ <;> simp

theorem Text.AtLineStart.isGap_getLast? {u : List Char} (h : AtLineStart u) : ∀ x ∈ u.getLast?, isGap x = true := by
  rcases h with rfl | ⟨v, rfl⟩
  · exact nofun
  · intro x hx
    rw [List.getLast?_concat, Option.mem_some] at hx
    rw [← hx]
    rfl

section Line

variable {d : Document} {l : Line} {p q : List Char} {x : Char}

/-- A token that is not trivia ends in front of the blanks of a line or behind them, if no backslash follows them. -/
theorem Line.bare_stop (hl : l ∈ d.lines) (htext : l.text = p ++ x :: q) (hp : ∀ x ∈ p, isBlank x = true)
    (hx : x ≠ '\\') {t : Token} {ts us : List Token} (hs : Token.scan d.text = ts ++ t :: us)
    (ht : t.kind.isTrivia = false) (hstart : l.start ≤ byteLength (textOf (ts ++ [t]))) :
    l.start + byteLength p < byteLength (textOf (ts ++ [t])) := by
  apply Decidable.byContradiction
  intro hle
  obtain ⟨u, v, hd, hu, hline⟩ := Document.exists_line_text hl
  have hcut : u ++ (p ++ (x :: q ++ v)) = textOf (ts ++ [t]) ++ textOf us := by
    rw [← Token.textOf_append, List.append_assoc, List.singleton_append, ← hs, Token.textOf_scan, hd, htext,
      List.append_assoc]
  obtain ⟨q₁, q₂, rfl, hfront, hback⟩ := exists_cut hcut (hu ▸ hstart) (hu ▸ Nat.not_lt.1 hle)
  obtain ⟨c, lex, rfl, hrest, hedge⟩ := Token.exists_edged hs
  -- the token ends with a blank or a line feed, so it is a quote that was left open
  have hlast : (c :: lex.tail).getLast? = (u ++ q₁).getLast? := by
    rw [← hfront, Token.textOf_append, List.getLast?_append_of_ne_nil]
    · simp
    · simp
  have hgap : ∀ y ∈ (c :: lex.tail).getLast?, isGap y = true := by
    intro y hy
    rw [hlast] at hy
    cases hq : q₁ with
    | nil =>
      rw [hq, List.append_nil] at hy
      exact hline.isGap_getLast? y hy
    | cons z zs =>
      rw [List.getLast?_append_of_ne_nil _ (by simp [hq])] at hy
      have hblank := hp y (List.mem_append_left _ (List.mem_of_getLast? hy))
      simp [isGap, hblank]
  obtain ⟨y, hy⟩ : ∃ y, (c :: lex.tail).getLast? = some y :=
    ⟨_, List.getLast?_eq_getLast_of_ne_nil (List.cons_ne_nil _ _)⟩
  have hopen := (hedge.bare ht y hy (hgap y hy)).head?
  rw [← hrest, hback] at hopen
  cases q₂ with
  | nil => exact hx (hopen x rfl)
  | cons z zs =>
    have hz := hp z (List.mem_append_right _ List.mem_cons_self)
    rw [hopen z rfl] at hz
    exact absurd hz (by decide)

theorem Line.bare_start (hl : l ∈ d.lines) (htext : l.text = p ++ q) (hp : ∀ x ∈ p, isBlank x = true)
    {t : Token} {ts us : List Token} (hs : Token.scan d.text = ts ++ t :: us) (ht : t.kind ≠ .whitespace)
    (hstop : byteLength (textOf ts) < l.start + byteLength p) : byteLength (textOf ts) < l.start := by
  apply Decidable.byContradiction
  intro hge
  obtain ⟨u, v, hd, hu, -⟩ := Document.exists_line_text hl
  have hcut : u ++ (p ++ (q ++ v)) = textOf ts ++ textOf (t :: us) := by
    rw [← Token.textOf_append, ← hs, Token.textOf_scan, hd, htext, List.append_assoc]
  obtain ⟨q₁, q₂, rfl, hfront, hback⟩ := exists_cut hcut (hu ▸ Nat.not_lt.1 hge) (hu ▸ Nat.le_of_lt hstop)
  obtain ⟨c, lex, rfl, -, hedge⟩ := Token.exists_edged hs
  cases q₂ with
  | nil =>
    rw [hfront, hu, byteLength_append, List.append_nil] at hstop
    omega
  | cons z zs =>
    obtain ⟨rfl, -⟩ := List.cons.inj hback
    exact ht (hedge.starts (hp c (List.mem_append_right _ List.mem_cons_self)))

end Line

end LosslessYaml
