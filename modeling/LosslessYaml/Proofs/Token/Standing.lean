import LosslessYaml.Token.Lexer
import LosslessYaml.Token.Placement

namespace LosslessYaml

namespace Text

def lastLine (u : List Char) : List Char := (u.reverse.takeWhile (· ≠ '\n')).reverse

def column (u : List Char) : Nat := (lastLine u).length

theorem lastLine_concat (u : List Char) (c : Char) :
    lastLine (u ++ [c]) = if c = '\n' then [] else lastLine u ++ [c] := by
  by_cases h : c = '\n' <;> simp [lastLine, h]

theorem lastLine_append {u v : List Char} (h : '\n' ∉ v) : lastLine (u ++ v) = lastLine u ++ v := by
  induction v generalizing u with
  | nil => simp
  | cons c v ih =>
    simp only [List.mem_cons, not_or] at h
    have hc : c ≠ '\n' := fun hc => h.1 hc.symm
    rw [List.append_cons, ih h.2, lastLine_concat, if_neg hc, List.append_assoc,
      List.singleton_append]

theorem column_append {u v : List Char} (h : '\n' ∉ v) : column (u ++ v) = column u + v.length := by
  rw [column, lastLine_append h, List.length_append, column]

theorem columnAfter_column (u v : List Char) :
    Placed.columnAfter (column u) v = column (u ++ v) := by
  induction v generalizing u with
  | nil => rw [List.append_nil]; rfl
  | cons c v ih =>
    have hc : (if c = '\n' then 0 else column u + 1) = column (u ++ [c]) := by
      rw [column, column, lastLine_concat]
      split <;> simp
    rw [List.append_cons, ← ih, ← hc]
    rfl

end Text

namespace Token

structure Regular (t : Token) : Prop where
  nonempty : t.text ≠ []
  blank : t.kind = .whitespace → ∀ c ∈ t.text, Text.isBlank c = true
  newline : t.kind = .newline → ∃ v, t.text = v ++ ['\n']
  oneLine : t.kind ≠ .newline → t.kind ≠ .quoted → t.kind ≠ .text → '\n' ∉ t.text

def Stops : List Token → Prop
  | [] => True
  | [t] => t.kind = .text ∧ '\n' ∉ t.text
  | t :: u :: _ => t.kind = .text ∧ '\n' ∉ t.text ∧ u.kind = .newline

/-- What is known of the tokens of a text. Text with a line feed in it is a quote that was left open, and
only a backslash at the end of a line stops it. -/
def Lexed : List Token → Prop
  | [] => True
  | t :: ts => t.Regular ∧ (t.kind = .text → '\n' ∈ t.text → Stops ts) ∧ Lexed ts

theorem lexed_of_append {ts us : List Token} (h : Lexed (ts ++ us)) : Lexed us := by
  induction ts with
  | nil => exact h
  | cons t ts ih => exact ih h.2.2

theorem regular_of_kind {t : Token} (hn : t.text ≠ []) (hw : t.kind ≠ .whitespace)
    (hk : t.kind ≠ .newline)
    (hl : t.kind ≠ .quoted → t.kind ≠ .text → '\n' ∉ t.text) : t.Regular :=
  ⟨hn, fun h => absurd h hw, fun h => absurd h hk, fun _ => hl⟩

theorem kind_of_indicator {c : Char} {k : Kind} (h : indicator? c = some k) :
    k.isTrivia = false ∧ '\n' ≠ c := by
  unfold indicator? at h
  split at h <;> first | (cases h; decide) | cases h

/-- Where a quote that was left open stops. -/
def Unclosed (rest : List Char) : Prop :=
  rest = [] ∨ rest = ['\\'] ∨ ∃ cs, rest = '\\' :: '\n' :: cs

structure Lexeme.Sound (c : Char) (l : Lexeme) : Prop where
  regular : (Token.mk l.kind (c :: l.tail)).Regular
  unclosed : l.kind = .text → '\n' ∈ c :: l.tail → Unclosed l.rest

theorem Lexeme.sound_of_oneLine {c : Char} {l : Lexeme} (hw : l.kind ≠ .whitespace)
    (hk : l.kind ≠ .newline)
    (hl : '\n' ∉ c :: l.tail) : l.Sound c :=
  ⟨regular_of_kind (by simp) hw hk fun _ _ => hl, fun _ h => absurd h hl⟩

theorem not_mem_run {k : Kind} {p : Char → Bool} {c : Char} (hc : '\n' ≠ c) (hp : p '\n' = false)
    (cs : List Char) :
    '\n' ∉ c :: (run k p cs).tail := by
  simp only [List.mem_cons, not_or]
  refine ⟨hc, fun h => ?_⟩
  have hall := List.all_eq_true.1 List.all_takeWhile _ h
  rw [hp] at hall
  cases hall

def scalarKinds : List Kind := [.text, .quoted, .question, .documentEnd]

theorem kind_plain (c : Char) (cs : List Char) : (plain c cs).kind ∈ scalarKinds := by
  simp only [plain, plainKind]
  split
  · decide
  · split <;> decide

theorem sound_plain {c : Char} (hc : '\n' ≠ c) (cs : List Char) : (plain c cs).Sound c := by
  have hne : ∀ k ∈ scalarKinds, k ≠ .whitespace ∧ k ≠ .newline := by decide
  obtain ⟨hw, hn⟩ := hne _ (kind_plain c cs)
  exact Lexeme.sound_of_oneLine hw hn (not_mem_run (k := .text) hc (by decide) cs)

theorem sound_hash (glued : Bool) (cs : List Char) : (hash glued cs).Sound '#' := by
  cases glued with
  | true => exact Lexeme.sound_of_oneLine (by simp [hash]) (by simp [hash]) (by simp [hash])
  | false =>
    exact Lexeme.sound_of_oneLine (by simp [hash, run]) (by simp [hash, run])
      (not_mem_run (by decide) (by decide) cs)

theorem sound_blanks {c : Char} (hc : Text.isBlank c = true) (cs : List Char) :
    (run .whitespace Text.isBlank cs).Sound c := by
  have hb : ∀ x ∈ c :: (run .whitespace Text.isBlank cs).tail, Text.isBlank x = true := by
    intro x hx
    rcases List.mem_cons.1 hx with rfl | hx
    · exact hc
    · exact List.all_eq_true.1 List.all_takeWhile x hx
  refine ⟨⟨by simp, fun _ => hb, fun h => ?_, fun _ _ _ h => ?_⟩, fun h => ?_⟩
  · cases h
  · exact absurd (hb _ h) (by decide)
  · cases h

theorem sound_carriageReturn (cs : List Char) : (carriageReturn cs).Sound '\r' := by
  unfold carriageReturn
  split
  · exact ⟨⟨by simp, by simp, fun _ => ⟨['\r'], rfl⟩, by simp⟩, by simp⟩
  · exact Lexeme.sound_of_oneLine (by simp) (by simp) (by simp)

theorem sound_dashes (cs : List Char) : (dashes cs).Sound '-' := by
  unfold dashes
  split
  · exact Lexeme.sound_of_oneLine (by simp) (by simp) (by simp)
  · exact Lexeme.sound_of_oneLine (by simp) (by simp) (by simp)

def Quotes (l : Lexeme) : Prop := l.kind = .quoted ∨ l.kind = .text ∧ Unclosed l.rest

theorem Quotes.kind {l : Lexeme} (h : Quotes l) : l.kind ∈ scalarKinds := by
  rcases h with h | ⟨h, -⟩ <;> rw [h] <;> decide

theorem quotes_doubleQuoted (cs : List Char) : Quotes (doubleQuoted cs) := by
  fun_induction doubleQuoted cs with
  | case1 => exact .inr ⟨rfl, .inl rfl⟩
  | case2 cs => exact .inl rfl
  | case3 cs => exact .inr ⟨rfl, .inr (.inr ⟨cs, rfl⟩)⟩
  | case4 c cs _ ih => exact ih
  | case5 => exact .inr ⟨rfl, .inr (.inl rfl)⟩
  | case6 c cs _ _ _ _ ih => exact ih

theorem quotes_singleQuoted (cs : List Char) : Quotes (singleQuoted cs) := by
  fun_induction singleQuoted cs with
  | case1 => exact .inr ⟨rfl, .inl rfl⟩
  | case2 cs ih => exact ih
  | case3 cs _ => exact .inl rfl
  | case4 c cs _ _ ih => exact ih

theorem Quotes.sound {l : Lexeme} (h : Quotes l) (c : Char) : l.Sound c := by
  rcases h with h | ⟨h, hu⟩
  · exact ⟨⟨by simp, by simp [h], by simp [h], by simp [h]⟩, by simp [h]⟩
  · exact ⟨⟨by simp, by simp [h], by simp [h], by simp [h]⟩, fun _ _ => hu⟩

theorem sound_lexeme (glued : Bool) (c : Char) (cs : List Char) : (lexeme glued c cs).Sound c := by
  unfold lexeme
  split
  · next h =>
    obtain ⟨hk, hc⟩ := kind_of_indicator h
    exact Lexeme.sound_of_oneLine (by rintro rfl; cases hk) (by rintro rfl; cases hk) (by simpa using hc)
  · split
    · exact sound_blanks (by decide) cs
    · exact sound_blanks (by decide) cs
    · exact ⟨⟨by simp, by simp, fun _ => ⟨[], rfl⟩, by simp⟩, by simp⟩
    · exact sound_carriageReturn cs
    · exact sound_hash glued cs
    · exact sound_dashes cs
    · exact (quotes_doubleQuoted cs).sound _
    · exact (quotes_singleQuoted cs).sound _
    · next hn _ _ _ _ _ =>
      have hc : '\n' ≠ c := fun h => hn h.symm
      split
      · exact Lexeme.sound_of_oneLine (by simp) (by simp) (by simpa using hc)
      · exact sound_plain hc cs

theorem scanFrom_backslash (glued : Bool) {cs : List Char} (h : cs = [] ∨ ∃ us, cs = '\n' :: us) :
    scanFrom glued ('\\' :: cs) = ⟨.text, ['\\']⟩ :: scanFrom true cs := by
  have hi : indicator? '\\' = none := by decide
  have hs : Text.isSpace '\\' = false := by decide
  have hp : isPlain '\n' = false := by decide
  rw [scanFrom]
  rcases h with rfl | ⟨us, rfl⟩
  · simp [lexeme, hi, hs, plain, run, plainKind, glues]
  · simp [lexeme, hi, hs, plain, run, plainKind, glues, hp]

theorem Unclosed.stops {rest : List Char} (h : Unclosed rest) (glued : Bool) :
    Stops (scanFrom glued rest) := by
  rcases h with rfl | rfl | ⟨cs, rfl⟩
  · rw [scanFrom]
    trivial
  · rw [scanFrom_backslash glued (.inl rfl), scanFrom]
    exact ⟨rfl, by decide⟩
  · rw [scanFrom_backslash glued (.inr ⟨cs, rfl⟩), scanFrom]
    exact ⟨rfl, by decide, by simp [lexeme, indicator?]⟩

theorem lexed_scanFrom (glued : Bool) (s : List Char) : Lexed (scanFrom glued s) := by
  fun_induction scanFrom glued s with
  | case1 => trivial
  | case2 glued c cs l ih =>
    have hl := sound_lexeme glued c cs
    exact ⟨hl.regular, fun hk hn => (hl.unclosed hk hn).stops _, ih⟩

end Token

namespace Placed

def Behind : List Char → List Placed → Prop
  | _, [] => True
  | u, t :: ts =>
    t.column = Text.column u ∧
      (t.startsLine = true → ∀ c ∈ Text.lastLine u, Text.isBlank c = true) ∧
      Behind (u ++ t.text) ts

theorem behind_of_append {u : List Char} {ts us : List Placed} (h : Behind u (ts ++ us)) :
    Behind (u ++ Token.textOf (ts.map Placed.token)) us := by
  induction ts generalizing u with
  | nil => simpa using h
  | cons t ts ih =>
    have := ih h.2.2
    rwa [List.append_assoc] at this

theorem blank_lastLine {u : List Char} {fresh : Bool} {t : Token} (ht : t.Regular)
    (hu : fresh = true → ∀ c ∈ Text.lastLine u, Text.isBlank c = true)
    (h : freshAfter fresh t.kind = true) :
    ∀ c ∈ Text.lastLine (u ++ t.text), Text.isBlank c = true := by
  intro c hc
  by_cases hw : t.kind = .whitespace
  · rw [hw] at h
    rw [Text.lastLine_append (ht.oneLine (by simp [hw]) (by simp [hw]) (by simp [hw]))] at hc
    rcases List.mem_append.1 hc with hc | hc
    · exact hu h c hc
    · exact ht.blank hw c hc
  · have hk : t.kind = .newline := by
      revert h
      unfold freshAfter
      split <;> simp_all
    obtain ⟨v, hv⟩ := ht.newline hk
    rw [hv, ← List.append_assoc, Text.lastLine_concat, if_pos rfl] at hc
    cases hc

theorem behind_placeFrom {ts : List Token} (h : Token.Lexed ts) {u : List Char} {fresh : Bool}
    (hu : fresh = true → ∀ c ∈ Text.lastLine u, Text.isBlank c = true) :
    Behind u (placeFrom (Text.column u) fresh ts) := by
  induction ts generalizing u fresh with
  | nil => trivial
  | cons t ts ih =>
    refine ⟨rfl, hu, ?_⟩
    rw [Text.columnAfter_column]
    exact ih h.2.2 (blank_lastLine h.1 hu)

structure Stands (u : List Char) (ts : List Placed) : Prop where
  behind : Behind u ts
  lexed : Token.Lexed (ts.map Placed.token)

theorem stands_place (s : List Char) : Stands [] (place (Token.scan s)) := by
  have h := Token.lexed_scanFrom false s
  refine ⟨behind_placeFrom h (by simp [Text.lastLine]), ?_⟩
  rw [map_token_place]
  exact h

theorem Stands.rest {u : List Char} {ts us : List Placed} (h : Stands u (ts ++ us)) :
    Stands (u ++ Token.textOf (ts.map Placed.token)) us := by
  refine ⟨behind_of_append h.behind, ?_⟩
  have hl := h.lexed
  rw [List.map_append] at hl
  exact Token.lexed_of_append hl

theorem Stands.column {u : List Char} {t : Placed} {ts : List Placed} (h : Stands u (t :: ts)) :
    Text.column u = t.column :=
  h.behind.1.symm

end Placed

end LosslessYaml
