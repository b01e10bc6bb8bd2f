import LosslessYaml.Proofs.Grammar.Progress
import LosslessYaml.Proofs.Token.Standing
import LosslessYaml.Proofs.Writing.Block

namespace LosslessYaml

namespace Token

variable {c : Char}

theorem toNat_of_isAlphanum (h : c.isAlphanum = true) :
    48 ≤ c.toNat ∧ c.toNat ≤ 57 ∨ 65 ≤ c.toNat ∧ c.toNat ≤ 90 ∨ 97 ≤ c.toNat ∧ c.toNat ≤ 122 := by
  have h : (decide (65 ≤ c.val ∧ c.val ≤ 90) || (decide (97 ≤ c.val) && decide (c.val ≤ 122)) ||
      (decide (48 ≤ c.val) && decide (c.val ≤ 57))) = true := h
  simp only [Bool.or_eq_true, Bool.and_eq_true, decide_eq_true_eq, UInt32.le_iff_toNat_le,
    UInt32.reduceToNat, Char.toNat_val] at h
  omega

theorem isPlain_of_isAlphanum (h : c.isAlphanum = true) : isPlain c = true := by
  have hc := toNat_of_isAlphanum h
  have hs : Text.isSpace c = false := by
    simp only [Text.isSpace, Text.spaceRanges, List.any_cons, List.any_nil, Bool.or_false,
      Bool.or_eq_false_iff, Bool.and_eq_false_iff, decide_eq_false_iff_not]
    omega
  have hi : indicator? c = none := by
    unfold indicator?
    split <;> first | rfl | exact absurd hc (by decide)
  have hd (d : Char) (hd : d.isAlphanum = false) : c ≠ d := by
    rintro rfl
    rw [h] at hd
    cases hd
  simp [isPlain, hs, hi, hd '#' rfl, hd '"' rfl, hd '\'' rfl, hd '-' rfl]

theorem isSpace_of_isPlain (h : isPlain c = true) : Text.isSpace c = false := by
  cases hs : Text.isSpace c with
  | false => rfl
  | true => simp [isPlain, hs] at h

theorem lexeme_of_isPlain (h : isPlain c = true) (glued : Bool) (cs : List Char) :
    lexeme glued c cs = plain c cs := by
  have hi : indicator? c = none := by
    cases hi : indicator? c with
    | none => rfl
    | some k => simp [isPlain, hi] at h
  have hs := isSpace_of_isPlain h
  unfold lexeme
  rw [hi]
  simp only
  split
  all_goals first | exact absurd h (by decide) | rw [if_neg (by simp [hs])]

end Token

namespace Writing

open Token Placed Grammar

def read (n : Nat) (fresh glued : Bool) (s : List Char) : List Placed :=
  placeFrom n fresh (scanFrom glued s)

section Tokens

variable {n : Nat} {fresh glued : Bool} {s : List Char}

@[simp] theorem read_nil : read n fresh glued [] = [] := by
  rw [read, scanFrom]
  rfl

theorem read_lexeme (n : Nat) (fresh : Bool) {c : Char} {cs : List Char} {l : Lexeme}
    (h : lexeme glued c cs = l) :
    read n fresh glued (c :: cs) = ⟨⟨l.kind, c :: l.tail⟩, n, fresh⟩ ::
      read (columnAfter n (c :: l.tail)) (freshAfter fresh l.kind) (glues l.kind) l.rest := by
  rw [read, scanFrom, h]
  rfl

theorem columnAfter_of_not_mem {s : List Char} (h : '\n' ∉ s) (n : Nat) :
    columnAfter n s = n + s.length := by
  induction s generalizing n with
  | nil => rfl
  | cons c s ih =>
    simp only [List.mem_cons, not_or] at h
    have hs := ih h.2 (n + 1)
    rw [columnAfter] at hs ⊢
    rw [List.foldl_cons, if_neg (Ne.symm h.1), hs, List.length_cons]
    omega

def Breaks (s : List Char) : Prop := s = [] ∨ ∃ (b : Break) (t : List Char), s = b.text ++ t

def Spaced (s : List Char) : Prop := Breaks s ∨ ∃ t, s = ' ' :: t

/-- A character that neither is trivia nor belongs to any. -/
def Opens (s : List Char) : Prop := ∃ c t, s = c :: t ∧ (isPlain c = true ∨ c = '-' ∨ (indicator? c).isSome = true)

theorem takeWhile_append_of_all {p : Char → Bool} {w : List Char} (hw : ∀ c ∈ w, p c = true)
    (hs : ∀ c ∈ s.head?, p c = false) : (w ++ s).takeWhile p = w ∧ (w ++ s).dropWhile p = s := by
  have hs' : s.takeWhile p = [] ∧ s.dropWhile p = s := by
    cases s with
    | nil => exact ⟨rfl, rfl⟩
    | cons c s =>
      have hc := hs c rfl
      simp [hc]
  rw [List.takeWhile_append_of_pos hw, List.dropWhile_append_of_pos hw, hs'.1, hs'.2, List.append_nil]
  exact ⟨rfl, rfl⟩

theorem Spaced.head (h : Spaced s) : ∀ c ∈ s.head?, c = ' ' ∨ c = '\n' ∨ c = '\r' := by
  rcases h with (rfl | ⟨b, t, rfl⟩) | ⟨t, rfl⟩
  · simp
  · cases b <;> simp [Break.text]
  · simp

theorem read_plain {w : List Char} (hw : w ≠ []) (hp : ∀ c ∈ w, isPlain c = true)
    (hk : plainKind w s = .text) (hs : ∀ c ∈ s.head?, isPlain c = false) :
    read n fresh glued (w ++ s) =
      ⟨⟨.text, w⟩, n, fresh⟩ :: read (n + w.length) false true s := by
  cases w with
  | nil => exact absurd rfl hw
  | cons c w =>
    have hn : '\n' ∉ c :: w := fun h => absurd (hp _ h) (by decide)
    obtain ⟨ht, hd⟩ := takeWhile_append_of_all (fun x hx => hp x (List.mem_cons_of_mem _ hx)) hs
    have hl : lexeme glued c (w ++ s) = ⟨.text, w, s⟩ := by
      rw [lexeme_of_isPlain (hp c List.mem_cons_self), plain, run, ht, hd, hk]
    rw [List.cons_append, read_lexeme _ _ hl, columnAfter_of_not_mem hn]
    rfl

theorem plainKind_of_ne {w : List Char} (h : '?' ∉ w) (h' : '.' ∉ w) (s : List Char) :
    plainKind w s = .text := by
  have h₁ : w ≠ ['?'] := by
    rintro rfl
    simp at h
  have h₂ : w ≠ ['.', '.', '.'] := by
    rintro rfl
    simp at h'
  simp [plainKind, h₁, h₂]

theorem Word.not_mem (w : Word) {c : Char} (h : c.isAlphanum = false) : c ∉ w.chars := by
  intro hc
  rw [w.alphanum c hc] at h
  cases h

theorem Word.isPlain (w : Word) : ∀ c ∈ w.chars, isPlain c = true :=
  fun c hc => isPlain_of_isAlphanum (w.alphanum c hc)

theorem read_word (w : Word) (hs : ∀ c ∈ s.head?, isPlain c = false) :
    read n fresh glued (w.chars ++ s) =
      ⟨⟨.text, w.chars⟩, n, fresh⟩ :: read (n + w.chars.length) false true s :=
  read_plain w.ne_nil w.isPlain (plainKind_of_ne (w.not_mem rfl) (w.not_mem rfl) s) hs

theorem Spaced.isPlain (h : Spaced s) : ∀ c ∈ s.head?, isPlain c = false := by
  intro c hc
  rcases h.head c hc with rfl | rfl | rfl <;> decide

theorem read_anchor (w : Word) (hs : Spaced s) :
    read n fresh glued ('&' :: w.chars ++ s) =
      ⟨⟨.text, '&' :: w.chars⟩, n, fresh⟩ :: read (n + w.chars.length + 1) false true s := by
  have hp : ∀ c ∈ '&' :: w.chars, Token.isPlain c = true := by
    intro c hc
    rcases List.mem_cons.1 hc with rfl | hc
    · decide
    · exact w.isPlain c hc
  have hn (d : Char) (hd : d.isAlphanum = false) (hne : d ≠ '&') : d ∉ '&' :: w.chars := by
    intro h
    rcases List.mem_cons.1 h with rfl | h
    · exact hne rfl
    · exact w.not_mem hd h
  exact read_plain (List.cons_ne_nil _ _) hp
    (plainKind_of_ne (hn '?' rfl (by decide)) (hn '.' rfl (by decide)) s) hs.isPlain

theorem read_indicator {c : Char} {k : Kind} (h : indicator? c = some k) :
    read n fresh glued (c :: s) = ⟨⟨k, [c]⟩, n, fresh⟩ :: read (columnAfter n [c]) (freshAfter fresh k) (glues k) s := by
  refine read_lexeme n fresh (l := ⟨k, [], s⟩) ?_
  unfold lexeme
  rw [h]

theorem read_colon :
    read n fresh glued (':' :: s) = ⟨⟨.colon, [':']⟩, n, fresh⟩ :: read (n + 1) false true s :=
  read_indicator rfl

theorem read_dash (hs : Spaced s) :
    read n fresh glued ('-' :: s) = ⟨⟨.dash, ['-']⟩, n, fresh⟩ :: read (n + 1) false true s := by
  refine read_lexeme _ _ (l := ⟨.dash, [], s⟩) ?_
  have hd : dashes s = ⟨.dash, [], s⟩ := by
    unfold dashes
    split
    · rcases hs.head '-' rfl with h | h | h <;> cases h
    · rfl
  rw [lexeme]
  exact hd

theorem read_break (b : Break) :
    read n fresh glued (b.text ++ s) = ⟨⟨.newline, b.text⟩, n, fresh⟩ :: read 0 true false s := by
  cases b with
  | lf => exact read_lexeme _ _ (l := ⟨.newline, [], s⟩) rfl
  | crlf => exact read_lexeme _ _ (l := ⟨.newline, ['\n'], s⟩) rfl

theorem read_spaces (m : Nat) (hs : ∀ c ∈ s.head?, Text.isBlank c = false) :
    read n fresh glued (spaces (m + 1) ++ s) =
      ⟨⟨.whitespace, spaces (m + 1)⟩, n, fresh⟩ :: read (n + (m + 1)) fresh false s := by
  have hb : ∀ c ∈ spaces m, Text.isBlank c = true := by
    intro c hc
    rw [List.eq_of_mem_replicate hc]
    rfl
  have hn : '\n' ∉ spaces (m + 1) := fun h => absurd (List.eq_of_mem_replicate h) (by decide)
  obtain ⟨ht, hd⟩ := takeWhile_append_of_all hb hs
  have hl : lexeme glued ' ' (spaces m ++ s) = ⟨.whitespace, spaces m, s⟩ := by
    have hr : run .whitespace Text.isBlank (spaces m ++ s) = ⟨.whitespace, spaces m, s⟩ := by
      rw [run, ht, hd]
    exact hr
  have hlen : (spaces (m + 1)).length = m + 1 := List.length_replicate
  have hr := read_lexeme n fresh hl
  rw [show ' ' :: spaces m = spaces (m + 1) from rfl, columnAfter_of_not_mem hn, hlen] at hr
  exact hr

theorem read_space (hs : ∀ c ∈ s.head?, Text.isBlank c = false) :
    read n fresh glued (' ' :: s) =
      ⟨⟨.whitespace, [' ']⟩, n, fresh⟩ :: read (n + 1) fresh false s :=
  read_spaces 0 hs

end Tokens

section Trivia

variable {n : Nat} {fresh glued : Bool} {s : List Char}

theorem pastTrivia_cons {t : Placed} {ts : List Placed} (h : t.kind.isTrivia = true) :
    pastTrivia (t :: ts) = pastTrivia ts := by
  simp [pastTrivia, h]

theorem Breaks.isBlank (h : Breaks s) : ∀ c ∈ s.head?, Text.isBlank c = false := by
  rcases h with rfl | ⟨b, t, rfl⟩
  · simp
  · cases b <;> simp [Break.text, Text.isBlank]

theorem Opens.isBlank (h : Opens s) : ∀ c ∈ s.head?, Text.isBlank c = false := by
  obtain ⟨c, t, rfl, hc⟩ := h
  rintro x ⟨⟩
  cases hb : Text.isBlank c with
  | false => rfl
  | true =>
    rcases hc with hc | hc
    · exact absurd (Text.isSpace_of_isBlank hb) (by simp [isSpace_of_isPlain hc])
    · simp only [Text.isBlank, Bool.or_eq_true, decide_eq_true_eq] at hb
      rcases hb with rfl | rfl <;> exact absurd hc (by decide)

theorem read_opens (h : Opens s) (n : Nat) (fresh glued : Bool) :
    ∃ t ts, read n fresh glued s = t :: ts ∧ t.kind.isTrivia = false := by
  obtain ⟨c, t, rfl, hc⟩ := h
  rcases hc with hc | rfl | hc
  · have hkind : ∀ k ∈ scalarKinds, k.isTrivia = false := by decide
    exact ⟨_, _, read_lexeme _ _ (lexeme_of_isPlain hc glued t), hkind _ (kind_plain c t)⟩
  · refine ⟨_, _, read_lexeme _ _ (l := dashes t) rfl, ?_⟩
    have hd : (dashes t).kind.isTrivia = false := by
      unfold dashes
      split <;> rfl
    exact hd
  · obtain ⟨k, hk⟩ := Option.isSome_iff_exists.1 hc
    exact ⟨_, _, read_indicator hk, (kind_of_indicator hk).1⟩

theorem Word.opens (w : Word) (r : List Char) : Opens (w.chars ++ r) := by
  obtain ⟨c, cs, hc⟩ := List.exists_cons_of_ne_nil w.ne_nil
  exact ⟨c, cs ++ r, by simp [hc], .inl (w.isPlain c (by simp [hc]))⟩

theorem Head.opens {k : Shape} (h : Head k) (t : List Char) : Opens (h.text ++ t) := by
  cases h with
  | key w =>
    rw [Head.text, List.append_assoc]
    exact w.opens _
  | dash => exact ⟨'-', t, rfl, .inr (.inl rfl)⟩

theorem spaced_anchorText (anchor : Option Word) {u : List Char} (h : Spaced u) :
    Spaced (anchorText anchor ++ u) := by
  cases anchor with
  | none => exact h
  | some w => exact .inr ⟨_, rfl⟩

end Trivia

section LineEnds

variable {n : Nat} {fresh glued : Bool} {s : List Char}

theorem atGap_of_spaced (h : Spaced s) : atGap (read n fresh glued s) = true := by
  rcases h with (rfl | ⟨b, t, rfl⟩) | ⟨t, rfl⟩
  · rw [read_nil]
    rfl
  · rw [read_break]
    rfl
  · rw [read_lexeme _ _ (l := run .whitespace Text.isBlank t) rfl]
    rfl

structure EndsLine (s : List Char) : Prop where
  spaced : Spaced s
  atLineEnd (n : Nat) (fresh glued : Bool) : Grammar.atLineEnd (read n fresh glued s) = true

theorem Breaks.endsLine (h : Breaks s) : EndsLine s := by
  refine ⟨.inl h, fun n fresh glued => ?_⟩
  rcases h with rfl | ⟨b, t, rfl⟩
  · rw [read_nil]
    rfl
  · rw [read_break]
    rfl

end LineEnds

section Text

variable {n : Nat} {fresh glued : Bool} {t : List Char}

theorem read_key (w : Word) (t : List Char) :
    read n fresh glued (w.chars ++ ':' :: t) = ⟨⟨.text, w.chars⟩, n, fresh⟩ ::
      ⟨⟨.colon, [':']⟩, n + w.chars.length, false⟩ ::
        read (n + w.chars.length + 1) false true t := by
  rw [read_word w (by simp; decide), read_colon]

theorem read_anchorText (w : Word) {u : List Char} (hu : Spaced u) :
    read n fresh glued (anchorText (some w) ++ u) =
      ⟨⟨.whitespace, [' ']⟩, n, fresh⟩ :: ⟨⟨.text, '&' :: w.chars⟩, n + 1, fresh⟩ ::
        read (n + 1 + w.chars.length + 1) false true u := by
  rw [anchorText, List.cons_append, read_space (by simp [Text.isBlank]), read_anchor w hu]

end Text

end Writing

end LosslessYaml
