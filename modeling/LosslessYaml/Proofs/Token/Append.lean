import LosslessYaml.Proofs.Token.Standing

namespace LosslessYaml

namespace Token

def Lexeme.behind (u : List Char) (l : Lexeme) : Lexeme := { l with rest := l.rest ++ u }

def Lexeme.Broken (l : Lexeme) : Prop := ∃ v, l.rest = v ++ ['\n']

variable {u : List Char}

theorem run_append {k : Kind} {p : Char → Bool} {cs : List Char} (h : (run k p cs).Broken) :
    run k p (cs ++ u) = (run k p cs).behind u := by
  obtain ⟨v, hv⟩ := h
  have hd : cs.dropWhile p = v ++ ['\n'] := hv
  have hne : (cs.dropWhile p).isEmpty = false := by simp [hd]
  have ht : (cs.takeWhile p).length ≠ cs.length := by
    have hl := congrArg List.length (List.takeWhile_append_dropWhile (p := p) (l := cs))
    rw [List.length_append, hd, List.length_append, List.length_singleton] at hl
    omega
  rw [run, List.takeWhile_append, if_neg ht, List.dropWhile_append, if_neg (by simp [hne])]
  rfl

theorem doubleQuoted_append {cs : List Char} (h : (doubleQuoted cs).Broken) :
    doubleQuoted (cs ++ u) = (doubleQuoted cs).behind u := by
  fun_induction doubleQuoted cs with
  | case1 =>
    obtain ⟨v, hv⟩ := h
    simp at hv
  | case2 cs => rfl
  | case3 cs => rfl
  | case4 c cs hc ih =>
    have hd : doubleQuoted ('\\' :: c :: (cs ++ u)) = (doubleQuoted (cs ++ u)).push ['\\', c] := by
      rw [doubleQuoted]
      exact hc
    rw [List.cons_append, List.cons_append, hd, ih h]
    rfl
  | case5 =>
    obtain ⟨v, hv⟩ := h
    cases v <;> simp at hv
  | case6 c cs hq _ hc hn ih =>
    have hb : c ≠ '\\' := by
      intro hb
      cases cs with
      | nil => exact hn hb rfl
      | cons d ds => exact hc d ds hb rfl
    have hd : doubleQuoted (c :: (cs ++ u)) = (doubleQuoted (cs ++ u)).push [c] := by
      rw [doubleQuoted]
      · exact hq
      · exact fun _ h _ => hb h
      · exact fun _ _ h _ => hb h
      · exact fun h _ => hb h
    rw [List.cons_append, hd, ih h]
    rfl

theorem singleQuoted_append {cs : List Char} (h : (singleQuoted cs).Broken) :
    singleQuoted (cs ++ u) = (singleQuoted cs).behind u := by
  fun_induction singleQuoted cs with
  | case1 =>
    obtain ⟨v, hv⟩ := h
    simp at hv
  | case2 cs ih =>
    rw [List.cons_append, List.cons_append, singleQuoted, ih h]
    rfl
  | case3 cs hc =>
    obtain ⟨v, hv⟩ := h
    cases cs with
    | nil => simp at hv
    | cons d ds =>
      rw [List.cons_append, singleQuoted]
      · rfl
      · intro es he
        exact hc ds (by rw [List.cons_append] at he; rw [(List.cons.inj he).1])
  | case4 c cs _ hc ih =>
    rw [List.cons_append, singleQuoted, ih h]
    · rfl
    · exact fun _ h _ => hc h
    · exact hc

theorem plain_append {c : Char} {cs : List Char} (h : (plain c cs).Broken) :
    plain c (cs ++ u) = (plain c cs).behind u := by
  have hr : (run .text isPlain cs).Broken := h
  have hh : ((run .text isPlain cs).rest ++ u).head? = (run .text isPlain cs).rest.head? := by
    obtain ⟨v, hv⟩ := hr
    rw [hv]
    cases v <;> rfl
  simp only [plain, run_append hr, Lexeme.behind, plainKind, hh]

theorem hash_append {glued : Bool} {cs : List Char} (h : (hash glued cs).Broken) :
    hash glued (cs ++ u) = (hash glued cs).behind u := by
  cases glued with
  | true => rfl
  | false => exact run_append h

theorem carriageReturn_append {cs : List Char} (h : (carriageReturn cs).Broken) :
    carriageReturn (cs ++ u) = (carriageReturn cs).behind u := by
  fun_cases carriageReturn cs with
  | case1 cs => rfl
  | case2 cs hc =>
    rw [carriageReturn] at h
    · obtain ⟨v, hv⟩ := h
      cases cs with
      | nil => simp at hv
      | cons c cs =>
        rw [List.cons_append, carriageReturn]
        · rfl
        · intro ds hd
          exact hc cs (by rw [(List.cons.inj hd).1])
    · exact hc

theorem dashes_append {cs : List Char} (h : (dashes cs).Broken) :
    dashes (cs ++ u) = (dashes cs).behind u := by
  fun_cases dashes cs with
  | case1 cs => rfl
  | case2 cs hc =>
    rw [dashes] at h
    · obtain ⟨v, hv⟩ := h
      match cs, hc, hv with
      | [], _, hv => simp at hv
      -- a single character left could be a dash that more dashes follow, were it not a line feed
      | [c], _, hv =>
        have hn : c = '\n' := by
          cases v <;> simp at hv
          exact hv
        subst hn
        rfl
      | c :: d :: cs, hc, _ =>
        rw [List.cons_append, List.cons_append, dashes]
        · rfl
        · intro ds hd
          simp only [List.cons.injEq] at hd
          exact hc cs (by rw [hd.1, hd.2.1])
    · exact hc

theorem lexeme_append {glued : Bool} {c : Char} {cs : List Char} (h : (lexeme glued c cs).Broken) :
    lexeme glued c (cs ++ u) = (lexeme glued c cs).behind u := by
  unfold lexeme at h ⊢
  cases hi : indicator? c with
  | some k => rfl
  | none =>
    rw [hi] at h
    simp only at h ⊢
    split at h
    · exact run_append h
    · exact run_append h
    · rfl
    · exact carriageReturn_append h
    · exact hash_append h
    · exact dashes_append h
    · exact doubleQuoted_append h
    · exact singleQuoted_append h
    · split at h
      · next hs => simp [hs, Lexeme.behind]
      · next hs =>
        simp only [hs]
        exact plain_append h

def EndsLine (ts : List Token) : Prop := ∃ us t, ts = us ++ [t] ∧ t.kind = .newline

theorem endsLine_of_cons {t u : Token} {ts : List Token} (h : EndsLine (t :: u :: ts)) :
    EndsLine (u :: ts) := by
  obtain ⟨us, x, hx, hk⟩ := h
  cases us with
  | nil => simp at hx
  | cons v vs => exact ⟨vs, x, (List.cons.inj hx).2, hk⟩

theorem textOf_endsLine {ts : List Token} (hl : Lexed ts) (h : EndsLine ts) :
    ∃ v, textOf ts = v ++ ['\n'] := by
  obtain ⟨us, t, rfl, hk⟩ := h
  obtain ⟨v, hv⟩ := (lexed_of_append hl).1.newline hk
  exact ⟨textOf us ++ v, by simp [hv]⟩

theorem lexeme_append_of_newline {glued : Bool} {c : Char} {cs : List Char}
    (h : (lexeme glued c cs).kind = .newline) :
    lexeme glued c (cs ++ u) = (lexeme glued c cs).behind u := by
  have hne : ∀ k ∈ scalarKinds, k ≠ .newline := by decide
  unfold lexeme at h ⊢
  cases hi : indicator? c with
  | some k => rfl
  | none =>
    rw [hi] at h
    simp only at h ⊢
    split at h
    · cases h
    · cases h
    · rfl
    · unfold carriageReturn at h ⊢
      split at h
      · rfl
      · cases h
    · rw [hash] at h
      split at h <;> cases h
    · unfold dashes at h
      split at h <;> cases h
    · exact absurd h (hne _ (quotes_doubleQuoted cs).kind)
    · exact absurd h (hne _ (quotes_singleQuoted cs).kind)
    · split at h
      · cases h
      · exact absurd h (hne _ (kind_plain c cs))

/-- No token reaches across a line break at the end of a text. -/
theorem scanFrom_append (glued : Bool) {s : List Char} (h : EndsLine (scanFrom glued s))
    (u : List Char) :
    scanFrom glued (s ++ u) = scanFrom glued s ++ scanFrom false u := by
  fun_induction scanFrom glued s with
  | case1 =>
    obtain ⟨us, t, hx, -⟩ := h
    simp at hx
  | case2 glued c cs l ih =>
    cases hr : scanFrom (glues l.kind) l.rest with
    | nil =>
      -- the last token is a line break, which is over with its line feed
      have hrest : l.rest = [] := by
        rw [← textOf_scanFrom (glues l.kind) l.rest, hr, textOf_nil]
      have hk : l.kind = .newline := by
        rw [hr] at h
        obtain ⟨us, t, ht, hk⟩ := h
        cases us with
        | nil =>
          rw [← (List.cons.inj ht).1] at hk
          exact hk
        | cons v vs => simp at ht
      have hl : lexeme glued c (cs ++ u) = l.behind u := lexeme_append_of_newline hk
      rw [List.cons_append, scanFrom, hl]
      simp [Lexeme.behind, hrest, hk, glues]
    | cons t ts =>
      -- a token in front of others sees no further than the line feed at their end
      rw [hr] at h ih
      have hend := endsLine_of_cons h
      have hb : l.Broken := by
        have hx := textOf_endsLine (hr ▸ lexed_scanFrom (glues l.kind) l.rest) hend
        rwa [← hr, textOf_scanFrom] at hx
      have hl : lexeme glued c (cs ++ u) = l.behind u := lexeme_append hb
      rw [List.cons_append, scanFrom, hl]
      simp only [Lexeme.behind]
      rw [ih hend]
      rfl

theorem scan_append {s : List Char} (h : scan s = [] ∨ EndsLine (scan s)) (u : List Char) :
    scan (s ++ u) = scan s ++ scan u := by
  rcases h with h | h
  · have hs : s = [] := by rw [← textOf_scan s, h, textOf_nil]
    rw [h, hs]
    rfl
  · exact scanFrom_append false h u

end Token

namespace Placed

theorem placeFrom_append {ts : List Token} (hl : Token.Lexed ts) (h : Token.EndsLine ts)
    (us : List Token) (col : Nat)
    (fresh : Bool) : placeFrom col fresh (ts ++ us) = placeFrom col fresh ts ++ place us := by
  induction ts generalizing col fresh with
  | nil =>
    obtain ⟨vs, t, ht, -⟩ := h
    simp at ht
  | cons t ts ih =>
    cases ts with
    | nil =>
      obtain ⟨vs, x, hx, hk⟩ := h
      cases vs with
      | cons v vs => simp at hx
      | nil =>
        obtain rfl := (List.cons.inj hx).1
        obtain ⟨v, hv⟩ := hl.1.newline hk
        have hc : columnAfter col t.text = 0 := by simp [columnAfter, hv]
        simp [placeFrom, place, hc, hk, freshAfter]
    | cons u vs =>
      have hi := ih hl.2.2 (Token.endsLine_of_cons h) (columnAfter col t.text)
        (freshAfter fresh t.kind)
      rw [List.cons_append, placeFrom, hi]
      rfl

theorem place_scan_append {s : List Char} (h : Token.scan s = [] ∨ Token.EndsLine (Token.scan s))
    (u : List Char) :
    place (Token.scan (s ++ u)) = place (Token.scan s) ++ place (Token.scan u) := by
  rw [Token.scan_append h]
  rcases h with h | h
  · rw [h]
    rfl
  · exact placeFrom_append (Token.lexed_scanFrom false s) h _ 0 true

end Placed

end LosslessYaml
