import LosslessYaml.Proofs.Token.LineBreak

namespace LosslessYaml

namespace Token

def escape : List Char → List Char
  | [] => []
  | c :: s => if c = '"' ∨ c = '\\' then '\\' :: c :: escape s else c :: escape s

def double : List Char → List Char
  | [] => []
  | c :: s => if c = '\'' then '\'' :: '\'' :: double s else c :: double s

def doubleQuote (s : List Char) : List Char := '"' :: (escape s ++ ['"'])

def singleQuote (s : List Char) : List Char := '\'' :: (double s ++ ['\''])

namespace Lexeme

theorem push_push (u v : List Char) (l : Lexeme) : (l.push v).push u = l.push (u ++ v) := by
  simp only [push, List.append_assoc]

end Lexeme

theorem doubleQuoted_backslash {c : Char} (hc : c ≠ '\n') (cs : List Char) :
    doubleQuoted ('\\' :: c :: cs) = (doubleQuoted cs).push ['\\', c] := by
  rw [doubleQuoted]
  exact hc

theorem doubleQuoted_escape (s t : List Char) : doubleQuoted (escape s ++ t) = (doubleQuoted t).push (escape s) := by
  induction s with
  | nil => rfl
  | cons c s ih =>
    rw [escape]
    split
    · next hc =>
      have hfeed : c ≠ '\n' := by rcases hc with rfl | rfl <;> decide
      rw [List.cons_append, List.cons_append, doubleQuoted_backslash hfeed, ih, Lexeme.push_push]
      rfl
    · next hc =>
      obtain ⟨hq, hb⟩ := not_or.1 hc
      rw [List.cons_append, doubleQuoted_cons hq hb, ih, Lexeme.push_push]
      rfl

theorem singleQuoted_double (s t : List Char) : singleQuoted (double s ++ t) = (singleQuoted t).push (double s) := by
  induction s with
  | nil => rfl
  | cons c s ih =>
    rw [double]
    split
    · next hc =>
      rw [List.cons_append, List.cons_append, singleQuoted, ih, Lexeme.push_push]
      rfl
    · next hc =>
      rw [List.cons_append, singleQuoted_cons hc, ih, Lexeme.push_push]
      rfl

theorem singleQuoted_closing {r : List Char} (h : r.head? ≠ some '\'') :
    singleQuoted ('\'' :: r) = ⟨.quoted, ['\''], r⟩ := by
  rw [singleQuoted]
  rintro cs rfl
  exact h rfl

theorem length_singleQuoted_pair (r : List Char) : 1 < (singleQuoted ('\'' :: '\'' :: r)).tail.length := by
  rw [singleQuoted, Lexeme.push, List.length_append]
  exact Nat.lt_add_right _ (by decide)

theorem scan_doubleQuoted (cs : List Char) :
    scan ('"' :: cs) = ⟨(doubleQuoted cs).kind, '"' :: (doubleQuoted cs).tail⟩ ::
      scanFrom (glues (doubleQuoted cs).kind) (doubleQuoted cs).rest := by
  rw [scan, scanFrom]
  rfl

theorem scan_singleQuoted (cs : List Char) :
    scan ('\'' :: cs) = ⟨(singleQuoted cs).kind, '\'' :: (singleQuoted cs).tail⟩ ::
      scanFrom (glues (singleQuoted cs).kind) (singleQuoted cs).rest := by
  rw [scan, scanFrom]
  rfl

theorem scan_doubleQuote (s r : List Char) :
    scan (doubleQuote s ++ r) = ⟨.quoted, doubleQuote s⟩ :: scanFrom true r := by
  rw [doubleQuote, List.cons_append, List.append_assoc, scan_doubleQuoted, doubleQuoted_escape]
  rfl

theorem scan_singleQuote (s : List Char) {r : List Char} (h : r.head? ≠ some '\'') :
    scan (singleQuote s ++ r) = ⟨.quoted, singleQuote s⟩ :: scanFrom true r := by
  rw [singleQuote, List.cons_append, List.append_assoc, scan_singleQuoted, singleQuoted_double, List.singleton_append,
    singleQuoted_closing h]
  rfl

theorem text_scan_singleQuote (s r : List Char) {t : Token} {ts : List Token}
    (h : scan (singleQuote s ++ '\'' :: r) = t :: ts) : t.text ≠ singleQuote s := by
  rw [singleQuote, List.cons_append, List.append_assoc, scan_singleQuoted, singleQuoted_double] at h
  obtain ⟨rfl, -⟩ := List.cons.inj h
  intro ht
  have hlength := congrArg List.length (List.cons.inj ht).2
  have hlong := length_singleQuoted_pair r
  rw [Lexeme.push, List.length_append, List.length_append, List.length_singleton] at hlength
  rw [List.singleton_append] at hlength
  omega

/-- A text in double quotes is scanned as one quoted token, and what is left of the tokens is the text behind it. In
single quotes this is so just if the text behind does not start with a single quote. -/
theorem scan_quote (s r : List Char) :
    (∃ ts, scan (doubleQuote s ++ r) = ⟨.quoted, doubleQuote s⟩ :: ts ∧ textOf ts = r) ∧
      (r.head? ≠ some '\'' ↔ ∃ ts, scan (singleQuote s ++ r) = ⟨.quoted, singleQuote s⟩ :: ts ∧ textOf ts = r) := by
  refine ⟨⟨_, scan_doubleQuote s r, textOf_scanFrom true r⟩,
    fun h => ⟨_, scan_singleQuote s h, textOf_scanFrom true r⟩, ?_⟩
  rintro ⟨ts, hscan, -⟩ hr
  obtain ⟨r, rfl⟩ := List.head?_eq_some_iff.1 hr
  exact text_scan_singleQuote s r hscan rfl

example : scan (doubleQuote ['\\', '"', '\''] ++ singleQuote ['\\', '"', '\'']) =
    [⟨.quoted, ['"', '\\', '\\', '\\', '"', '\'', '"']⟩, ⟨.quoted, ['\'', '\\', '"', '\'', '\'', '\'']⟩] := by
  decide +kernel

end Token

end LosslessYaml
