import LosslessYaml.Proofs.Token.Partition

/-! Reading tokens by their offsets. The token rules take every hash for the start of a comment. A lexer that is started
again behind a hash that touches a token gives the tokens of the text, each with its span. -/

namespace LosslessYaml.Token

open Text

structure Lexer : Type where
  position : Nat
  rest : List Char

namespace Lexer

def start (s : List Char) : Lexer := ⟨0, s⟩

def next? (x : Lexer) : Option (Kind × Lexer) :=
  match x.rest with
  | [] => none
  | c :: cs =>
    let l := lexeme false c cs
    some (l.kind, ⟨x.position + byteLength (c :: l.tail), l.rest⟩)

theorem next?_cons (n : Nat) (c : Char) (cs : List Char) : next? ⟨n, c :: cs⟩ =
    some ((lexeme false c cs).kind,
      ⟨n + byteLength (c :: (lexeme false c cs).tail), (lexeme false c cs).rest⟩) := rfl

theorem length_rest_of_next? {x y : Lexer} {k : Kind} (h : x.next? = some (k, y)) : y.rest.length < x.rest.length := by
  obtain ⟨n, s⟩ := x
  cases s with
  | nil => cases h
  | cons c cs =>
    rw [next?_cons] at h
    cases h
    exact Nat.lt_succ_of_le (length_rest_lexeme false c cs)

end Lexer

def followsText (done : List (Token × Nat × Nat)) : Bool := done.getLast?.any fun x => glues x.1.kind

/-- Reads a text to its end with a lexer that was started `base` bytes into it, behind the tokens in `done`. `none` if
a token or the text from a restart on is cut inside a character. -/
def readSpans? (s : List Char) (base : Nat) (x : Lexer) (done : List (Token × Nat × Nat)) :
    Option (List (Token × Nat × Nat)) :=
  match _ : x.next? with
  | none => some done
  | some (k, y) =>
    let start := base + x.position
    let stop := base + y.position
    if k = .comment && followsText done then
      match slice? start (start + 1) s, ht : cut? (start + 1) s with
      | some w, some (_, t) => readSpans? s (start + 1) (.start t) (done ++ [(⟨.text, w⟩, start, start + 1)])
      | _, _ => none
    else
      match slice? start stop s with
      | some w => readSpans? s base y (done ++ [(⟨k, w⟩, start, stop)])
      | none => none
termination_by (byteLength s + 1 - base, x.rest.length)
decreasing_by
  · obtain ⟨rfl, hu⟩ := eq_append_of_cut? ht
    rw [byteLength_append]
    exact .left _ _ (by omega)
  · exact .right _ (Lexer.length_rest_of_next? ‹_›)

theorem lexeme_eq_of_not_glued {glued : Bool} {c : Char} {cs : List Char}
    (h : ¬ ((lexeme false c cs).kind = .comment ∧ glued = true)) : lexeme glued c cs = lexeme false c cs := by
  cases glued with
  | false => rfl
  | true =>
    have hc : c ≠ '#' := by
      rintro rfl
      exact h ⟨rfl, rfl⟩
    unfold lexeme
    split
    · rfl
    · split <;> first | rfl | contradiction

theorem followsText_concat (done : List (Token × Nat × Nat)) (x : Token × Nat × Nat) :
    followsText (done ++ [x]) = glues x.1.kind := by
  rw [followsText, List.getLast?_concat]
  rfl

section Steps

variable {s w t v : List Char} {base start stop : Nat} {x y : Lexer} {k : Kind} {done : List (Token × Nat × Nat)}

theorem readSpans?_token (hx : x.next? = some (k, y)) (hk : (k = .comment && followsText done) = false)
    (hw : slice? (base + x.position) (base + y.position) s = some w) :
    readSpans? s base x done =
      readSpans? s base y (done ++ [(⟨k, w⟩, base + x.position, base + y.position)]) := by
  rw [readSpans?]
  split
  · next h => cases hx.symm.trans h
  · next h =>
    cases hx.symm.trans h
    dsimp only
    rw [if_neg (Bool.not_eq_true _ ▸ hk), hw]

theorem readSpans?_restart (hx : x.next? = some (.comment, y)) (hd : followsText done = true)
    (hw : slice? (base + x.position) (base + x.position + 1) s = some w)
    (ht : cut? (base + x.position + 1) s = some (v, t)) :
    readSpans? s base x done = readSpans? s (base + x.position + 1) (.start t)
      (done ++ [(⟨.text, w⟩, base + x.position, base + x.position + 1)]) := by
  rw [readSpans?]
  split
  · next h => cases hx.symm.trans h
  · next h =>
    cases hx.symm.trans h
    dsimp only
    rw [if_pos (by rw [hd]; rfl)]
    split
    · next hw' ht' =>
      cases hw.symm.trans hw'
      cases ht.symm.trans ht'
      rfl
    · next hnone => exact (hnone _ _ _ hw ht).elim

end Steps

/-- With or without a restart, the next token is the one that is scanned behind the tokens in `done`. -/
theorem exists_step {s u cs : List Char} {c : Char} {base n : Nat} (done : List (Token × Nat × Nat)) {l : Lexeme}
    (hl : lexeme (followsText done) c cs = l) (hs : s = u ++ c :: cs) (hu : byteLength u = base + n) :
    ∃ base' x, x.rest = l.rest ∧ s = u ++ c :: l.tail ++ x.rest ∧
      byteLength (u ++ c :: l.tail) = base' + x.position ∧
      readSpans? s base ⟨n, c :: cs⟩ done =
        readSpans? s base' x (done ++ [(⟨l.kind, c :: l.tail⟩, byteLength u, byteLength (u ++ c :: l.tail))]) := by
  have hnext := Lexer.next?_cons n c cs
  have hwhole : s = u ++ c :: l.tail ++ l.rest := by
    rw [hs, List.append_assoc, List.cons_append, ← Lexeme.whole, ← hl, whole_lexeme]
  by_cases hglued : (lexeme false c cs).kind = .comment ∧ followsText done = true
  · obtain ⟨hk, hd⟩ := hglued
    obtain rfl := eq_hash_of_comment hk
    rw [hd, lexeme_hash] at hl
    subst hl
    rw [hk] at hnext
    have hlen : byteLength (u ++ ['#']) = base + n + 1 := by rw [byteLength_append, hu]; rfl
    have hcut : cut? (base + n + 1) s = some (u ++ ['#'], cs) := by
      rw [hwhole, ← hlen]
      exact cut?_append (u ++ ['#']) cs
    refine ⟨base + n + 1, .start cs, rfl, hwhole, hlen, ?_⟩
    rw [readSpans?_restart hnext hd (slice?_append hwhole hu hlen) hcut, hu]
    exact congrArg (fun m => readSpans? s _ _ (done ++ [(_, _, m)])) hlen.symm
  · rw [← lexeme_eq_of_not_glued hglued, hl] at hnext
    have hlen : byteLength (u ++ c :: l.tail) = base + (n + byteLength (c :: l.tail)) := by
      rw [byteLength_append, hu, Nat.add_assoc]
    have hk : (l.kind = .comment && followsText done) = false := by
      rw [← hl, lexeme_eq_of_not_glued hglued]
      simpa using hglued
    refine ⟨base, ⟨n + byteLength (c :: l.tail), l.rest⟩, rfl, hwhole, hlen, ?_⟩
    rw [readSpans?_token hnext hk (slice?_append hwhole hu hlen), hu, hlen]

theorem readSpans?_eq {s u : List Char} {base : Nat} {x : Lexer} {done : List (Token × Nat × Nat)}
    (hs : s = u ++ x.rest) (hu : byteLength u = base + x.position) :
    readSpans? s base x done = some (done ++ spansFrom (byteLength u) (scanFrom (followsText done) x.rest)) := by
  -- the induction is on the text that is left, which gets shorter with a restart, too
  induction hr : x.rest.length using Nat.strongRecOn generalizing u base x done with
  | ind m ih =>
    obtain ⟨n, r⟩ := x
    cases r with
    | nil =>
      rw [scanFrom, spansFrom, List.append_nil, readSpans?]
      rfl
    | cons c cs =>
      obtain ⟨base', x, hrest, hsplit, hstop, hstep⟩ := exists_step done rfl hs hu
      have hlt : x.rest.length < m := by
        rw [hrest, ← hr]
        exact Nat.lt_succ_of_le (length_rest_lexeme _ c cs)
      rw [hstep, ih _ hlt hsplit hstop rfl, followsText_concat, hrest, scanFrom, spansFrom, ← byteLength_append,
        List.append_assoc]
      rfl

/-- Reading a text by offsets gives its tokens with their spans. -/
theorem readSpans?_scan (s : List Char) : readSpans? s 0 (.start s) [] = some (spans (scan s)) :=
  readSpans?_eq (u := []) rfl rfl

end LosslessYaml.Token
