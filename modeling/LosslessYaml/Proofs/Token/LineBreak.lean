import LosslessYaml.Token.Lexer
import LosslessYaml.Token.Placement

/-! Tokens of a text whose line feeds become pairs of a carriage return and a line feed. The tokens stay as they
are, but for one thing: a double quote left open, which ends in front of a backslash and a line feed, takes the
backslash and the carriage return with it. -/

namespace LosslessYaml

def Text.crlf : List Char → List Char
  | [] => []
  | c :: cs => if c = '\n' then '\r' :: '\n' :: crlf cs else c :: crlf cs

namespace Text

@[simp] theorem crlf_nil : crlf [] = [] := rfl

@[simp] theorem crlf_feed (cs : List Char) : crlf ('\n' :: cs) = '\r' :: '\n' :: crlf cs := rfl

theorem crlf_cons {c : Char} (h : c ≠ '\n') (cs : List Char) : crlf (c :: cs) = c :: crlf cs := if_neg h

theorem crlf_append (s t : List Char) : crlf (s ++ t) = crlf s ++ crlf t := by
  induction s with
  | nil => rfl
  | cons c s ih =>
    by_cases hc : c = '\n'
    · subst hc
      rw [List.cons_append, crlf_feed, crlf_feed, ih]
      rfl
    · rw [List.cons_append, crlf_cons hc, crlf_cons hc, ih, List.cons_append]

theorem crlf_of_not_mem {cs : List Char} (h : '\n' ∉ cs) : crlf cs = cs := by
  induction cs with
  | nil => rfl
  | cons c cs ih =>
    simp only [List.mem_cons, not_or] at h
    rw [crlf_cons (Ne.symm h.1), ih h.2]

theorem head?_crlf {c : Char} (hc : c ≠ '\r') (hn : c ≠ '\n') (cs : List Char) :
    (crlf cs).head? = some c ↔ cs.head? = some c := by
  cases cs with
  | nil => exact Iff.rfl
  | cons d ds =>
    by_cases hd : d = '\n'
    · subst hd
      simp [hc.symm, hn.symm]
    · rw [crlf_cons hd, List.head?_cons, List.head?_cons]

theorem takeWhile_crlf {p : Char → Bool} (hr : p '\r' = false) (hn : p '\n' = false) (cs : List Char) :
    (crlf cs).takeWhile p = crlf (cs.takeWhile p) ∧ (crlf cs).dropWhile p = crlf (cs.dropWhile p) := by
  induction cs with
  | nil => exact ⟨rfl, rfl⟩
  | cons c cs ih =>
    by_cases hc : c = '\n'
    · subst hc
      simp [hr, hn]
    · rw [crlf_cons hc]
      cases hp : p c with
      | true => simp [hp, ih, crlf_cons hc]
      | false => simp [hp, crlf_cons hc]

end Text

namespace Token

open Text

def crlf (t : Token) : Token := { t with text := Text.crlf t.text }

namespace Lexeme

def crlf (l : Lexeme) : Lexeme := ⟨l.kind, Text.crlf l.tail, Text.crlf l.rest⟩

theorem crlf_push (u : List Char) (l : Lexeme) : (l.push u).crlf = l.crlf.push (Text.crlf u) := by
  simp only [push, crlf, crlf_append]

end Lexeme

theorem run_crlf (k : Kind) {p : Char → Bool} (hr : p '\r' = false) (hn : p '\n' = false) (cs : List Char) :
    run k p (Text.crlf cs) = (run k p cs).crlf := by
  obtain ⟨ht, hd⟩ := takeWhile_crlf hr hn cs
  simp only [run, Lexeme.crlf, ht, hd]

def atEscapedFeed (s : List Char) : Bool := ['\\', '\n'].isPrefixOf s

theorem doubleQuoted_cons {c : Char} (hq : c ≠ '"') (hb : c ≠ '\\') (cs : List Char) :
    doubleQuoted (c :: cs) = (doubleQuoted cs).push [c] := by
  rw [doubleQuoted]
  · exact hq
  · exact fun _ h => absurd h hb
  · exact fun _ _ h => absurd h hb
  · exact fun h => absurd h hb

theorem doubleQuoted_crlf_cons {c : Char} (hq : c ≠ '"') (hb : c ≠ '\\') (cs : List Char) :
    doubleQuoted (Text.crlf (c :: cs)) = (doubleQuoted (Text.crlf cs)).push (Text.crlf [c]) := by
  by_cases hc : c = '\n'
  · subst hc
    rw [crlf_feed, doubleQuoted_cons (by decide) (by decide), doubleQuoted_cons (by decide) (by decide)]
    rfl
  · rw [crlf_cons hc, crlf_cons hc, doubleQuoted_cons hq hb]
    rfl

theorem doubleQuoted_crlf_escape {c : Char} (hc : c ≠ '\n') (cs : List Char) :
    doubleQuoted (Text.crlf ('\\' :: c :: cs)) = (doubleQuoted (Text.crlf cs)).push (Text.crlf ['\\', c]) := by
  have hb : '\\' ≠ '\n' := by decide
  rw [crlf_cons hb, crlf_cons hc, crlf_cons hb, crlf_cons hc, doubleQuoted]
  · rfl
  · exact hc

theorem ne_backslash {c : Char} {cs : List Char} (h : ∀ d ds, c = '\\' → cs = d :: ds → False)
    (h' : c = '\\' → cs = [] → False) : c ≠ '\\' := by
  intro hc
  cases cs with
  | nil => exact h' hc rfl
  | cons d ds => exact h d ds hc rfl

theorem doubleQuoted_crlf (cs : List Char)
    (h : (doubleQuoted cs).kind = .text → atEscapedFeed (doubleQuoted cs).rest = false) :
    doubleQuoted (Text.crlf cs) = (doubleQuoted cs).crlf := by
  fun_induction doubleQuoted cs with
  | case1 => rfl
  | case2 cs => rfl
  | case3 cs => exact absurd (h rfl) (by simp [atEscapedFeed])
  | case4 c cs hc ih => rw [doubleQuoted_crlf_escape hc, ih h, Lexeme.crlf_push]
  | case5 => rfl
  | case6 c cs hq _ hb hb' ih => rw [doubleQuoted_crlf_cons hq (ne_backslash hb hb'), ih h, Lexeme.crlf_push]

theorem length_doubleQuoted_crlf (cs : List Char) (hk : (doubleQuoted cs).kind = .text)
    (h : atEscapedFeed (doubleQuoted cs).rest = true) :
    (Text.crlf (doubleQuoted cs).tail).length < (doubleQuoted (Text.crlf cs)).tail.length := by
  fun_induction doubleQuoted cs with
  | case1 => cases h
  | case2 cs => cases hk
  | case3 cs =>
    rw [crlf_cons (by decide), crlf_feed, doubleQuoted]
    · simp [Lexeme.push]
    · decide
  | case4 c cs hc ih =>
    rw [doubleQuoted_crlf_escape hc]
    simpa only [Lexeme.push, crlf_append, List.length_append, Nat.add_lt_add_iff_left] using ih hk h
  | case5 => cases h
  | case6 c cs hq _ hb hb' ih =>
    rw [doubleQuoted_crlf_cons hq (ne_backslash hb hb')]
    simpa only [Lexeme.push, crlf_append, List.length_append, Nat.add_lt_add_iff_left] using ih hk h

theorem singleQuoted_cons {c : Char} (hq : c ≠ '\'') (cs : List Char) :
    singleQuoted (c :: cs) = (singleQuoted cs).push [c] := by
  rw [singleQuoted]
  · exact fun _ h => absurd h hq
  · exact hq

theorem singleQuoted_crlf (cs : List Char) :
    singleQuoted (Text.crlf cs) = (singleQuoted cs).crlf := by
  have hq : '\'' ≠ '\n' := by decide
  fun_induction singleQuoted cs with
  | case1 => rfl
  | case2 cs ih =>
    rw [crlf_cons hq, crlf_cons hq, singleQuoted, ih, Lexeme.crlf_push]
    rfl
  | case3 cs h =>
    rw [crlf_cons hq, singleQuoted]
    · rfl
    · intro ds hds
      have hhead := (head?_crlf (c := '\'') (by decide) hq cs).1 (by rw [hds]; rfl)
      obtain ⟨es, rfl⟩ := List.head?_eq_some_iff.1 hhead
      exact h es rfl
  | case4 c cs _ hc ih =>
    rw [Lexeme.crlf_push, ← ih]
    by_cases hn : c = '\n'
    · subst hn
      rw [crlf_feed, singleQuoted_cons (by decide), singleQuoted_cons hc]
      rfl
    · rw [crlf_cons hn, crlf_cons hn, singleQuoted_cons hc]
      rfl

theorem dashes_crlf (cs : List Char) : dashes (Text.crlf cs) = (dashes cs).crlf := by
  have hd : '-' ≠ '\n' := by decide
  fun_cases dashes cs with
  | case1 cs =>
    rw [crlf_cons hd, crlf_cons hd]
    rfl
  | case2 _ h =>
    rw [dashes]
    · rfl
    · intro ds hds
      have hhead := (head?_crlf (c := '-') (by decide) hd cs).1 (by rw [hds]; rfl)
      obtain ⟨es, rfl⟩ := List.head?_eq_some_iff.1 hhead
      rw [crlf_cons hd] at hds
      have hhead := (head?_crlf (c := '-') (by decide) hd es).1 (by rw [(List.cons.inj hds).2]; rfl)
      obtain ⟨fs, rfl⟩ := List.head?_eq_some_iff.1 hhead
      exact h fs rfl

theorem plain_crlf (c : Char) (cs : List Char) :
    plain c (Text.crlf cs) = (plain c cs).crlf := by
  have hrun := run_crlf .text (p := isPlain) (by decide) (by decide) cs
  have htail : Text.crlf (run .text isPlain cs).tail = (run .text isPlain cs).tail := by
    refine crlf_of_not_mem fun h => ?_
    exact absurd (List.all_eq_true.1 List.all_takeWhile _ h) (by decide)
  have hkind : plainKind (c :: (run .text isPlain cs).tail) (Text.crlf (run .text isPlain cs).rest) =
      plainKind (c :: (run .text isPlain cs).tail) (run .text isPlain cs).rest := by
    have hhead (rest : List Char) : (Text.crlf rest).head?.all (fun c => decide (c.toNat < 128)) =
        rest.head?.all (fun c => decide (c.toNat < 128)) := by
      cases rest with
      | nil => rfl
      | cons d ds =>
        by_cases hd : d = '\n'
        · subst hd
          rfl
        · rw [crlf_cons hd]
          rfl
    rw [plainKind, plainKind, hhead]
  simp only [plain, hrun, Lexeme.crlf, htail, hkind]

theorem hash_crlf (glued : Bool) (cs : List Char) : hash glued (Text.crlf cs) = (hash glued cs).crlf := by
  cases glued with
  | true => rfl
  | false => exact run_crlf .comment (by decide) (by decide) cs

/-- Every token stays what it is, unless it is a double quote left open in front of an escaped line feed. -/
theorem lexeme_crlf (glued : Bool) {c : Char} (hn : c ≠ '\n') (hr : c ≠ '\r') (cs : List Char)
    (h : c = '"' → (lexeme glued c cs).kind = .text → atEscapedFeed (lexeme glued c cs).rest = false) :
    lexeme glued c (Text.crlf cs) = (lexeme glued c cs).crlf := by
  unfold lexeme at h ⊢
  split
  · rfl
  · split
    · exact run_crlf .whitespace (by decide) (by decide) cs
    · exact run_crlf .whitespace (by decide) (by decide) cs
    · exact absurd rfl hn
    · exact absurd rfl hr
    · exact hash_crlf glued cs
    · exact dashes_crlf cs
    · exact doubleQuoted_crlf cs (h rfl)
    · exact singleQuoted_crlf cs
    · split
      · rfl
      · exact plain_crlf _ cs

/-- A double quote left open in front of an escaped line feed. -/
def cutAtFeed : List Token → Bool
  | [] => false
  | t :: ts =>
    t.kind = .text && t.text.head? = some '"' && atEscapedFeed (textOf ts) || cutAtFeed ts

theorem scanFrom_return_feed (glued : Bool) (cs : List Char) :
    scanFrom glued ('\r' :: '\n' :: cs) = ⟨.newline, ['\r', '\n']⟩ :: scanFrom false cs := by
  rw [scanFrom]
  rfl

theorem scanFrom_crlf (glued : Bool) {s : List Char} (hs : '\r' ∉ s) :
    scanFrom glued (Text.crlf s) = (scanFrom glued s).map crlf ↔ cutAtFeed (scanFrom glued s) = false := by
  fun_induction scanFrom glued s with
  | case1 => simp [scanFrom, cutAtFeed]
  | case2 glued c cs l ih =>
    have hwhole : l.tail ++ l.rest = cs := whole_lexeme glued c cs
    simp only [List.mem_cons, not_or] at hs
    have ih := ih fun h => hs.2 (hwhole ▸ List.mem_append_right _ h)
    by_cases hn : c = '\n'
    · subst hn
      rw [crlf_feed, scanFrom_return_feed]
      change _ :: _ = _ :: (scanFrom false cs).map crlf ↔ cutAtFeed (scanFrom false cs) = false
      exact (List.cons_inj_right _).trans ih
    · have hfirst : crlf ⟨l.kind, c :: l.tail⟩ = ⟨l.kind, c :: Text.crlf l.tail⟩ := by
        rw [crlf, crlf_cons hn]
      rw [crlf_cons hn, scanFrom, List.map_cons, hfirst, cutAtFeed, textOf_scanFrom, Bool.or_eq_false_iff]
      cases hcut : decide (l.kind = .text) && decide ((c :: l.tail).head? = some '"') && atEscapedFeed l.rest with
      | false =>
        have hl : lexeme glued c (Text.crlf cs) = l.crlf := by
          refine lexeme_crlf glued hn (Ne.symm hs.1) cs fun hc hk => ?_
          subst hc
          simpa [hk, l] using hcut
        simp only [hl, Lexeme.crlf, true_and]
        exact (List.cons_inj_right _).trans ih
      | true =>
        refine ⟨fun h => ?_, fun h => absurd h.1 Bool.false_ne_true.symm⟩
        simp only [Bool.and_eq_true, decide_eq_true_eq, List.head?_cons, Option.some.injEq] at hcut
        obtain ⟨⟨hk, rfl⟩, hfeed⟩ := hcut
        have hlen := length_doubleQuoted_crlf cs hk hfeed
        have htail := (List.cons.inj (congrArg Token.text (List.cons.inj h).1)).2
        exact absurd (congrArg List.length htail) (Nat.ne_of_gt hlen)

theorem columnAfter_crlf (n : Nat) (s : List Char) :
    Placed.columnAfter n (Text.crlf s) = Placed.columnAfter n s := by
  induction s generalizing n with
  | nil => rfl
  | cons c s ih =>
    by_cases hc : c = '\n'
    · subst hc
      rw [crlf_feed]
      exact ih 0
    · rw [crlf_cons hc]
      exact ih _

end Token

end LosslessYaml
