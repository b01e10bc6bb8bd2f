import LosslessYaml.Proofs.Token.Standing

namespace LosslessYaml

namespace Token

def OpensQuote (t : Token) : Prop := t.text.head? = some '"' ∨ t.text.head? = some '\''

def IsBreak (t : Token) : Prop := t.text = ['\n'] ∨ t.text = ['\r', '\n']

theorem IsBreak.cut {t : Token} (h : t.IsBreak) {x y : List Char} (ht : t.text = x ++ '\n' :: y) :
    y = [] := by
  rcases h with h | h
  · rw [h] at ht
    cases x with
    | nil => simpa using ht.symm
    | cons c x => simp at ht
  · rw [h] at ht
    match x, ht with
    | [], ht => simp at ht
    | [c], ht =>
      simp only [List.singleton_append, List.cons.injEq] at ht
      exact ht.2.2.symm
    | c :: d :: x, ht => simp at ht

structure Feeds (t : Token) : Prop where
  isBreak : t.kind = .newline → t.IsBreak
  opensQuote : t.kind ≠ .newline → '\n' ∈ t.text → t.OpensQuote

theorem feeds_of_oneLine {t : Token} (hk : t.kind ≠ .newline) (h : '\n' ∉ t.text) : t.Feeds :=
  ⟨fun hn => absurd hn hk, fun _ hn => absurd hn h⟩

theorem feeds_of_quote {t : Token} (hk : t.kind ≠ .newline) (h : t.OpensQuote) : t.Feeds :=
  ⟨fun hn => absurd hn hk, fun _ _ => h⟩

theorem feeds_carriageReturn (cs : List Char) :
    Feeds ⟨(carriageReturn cs).kind, '\r' :: (carriageReturn cs).tail⟩ := by
  unfold carriageReturn
  split
  · exact ⟨fun _ => .inr rfl, fun h => absurd rfl h⟩
  · exact feeds_of_oneLine (by simp) (by simp)

theorem feeds_hash (glued : Bool) (cs : List Char) :
    Feeds ⟨(hash glued cs).kind, '#' :: (hash glued cs).tail⟩ := by
  cases glued with
  | true => exact feeds_of_oneLine (by simp [hash]) (by simp [hash])
  | false =>
    exact feeds_of_oneLine (by simp [hash, run]) (not_mem_run (by decide) (by decide) cs)

theorem feeds_dashes (cs : List Char) : Feeds ⟨(dashes cs).kind, '-' :: (dashes cs).tail⟩ := by
  unfold dashes
  split <;> exact feeds_of_oneLine (by simp) (by simp)

theorem feeds_lexeme (glued : Bool) (c : Char) (cs : List Char) :
    Feeds ⟨(lexeme glued c cs).kind, c :: (lexeme glued c cs).tail⟩ := by
  have hne : ∀ k ∈ scalarKinds, k ≠ .newline := by decide
  unfold lexeme
  split
  · next h =>
    obtain ⟨hk, hc⟩ := kind_of_indicator h
    exact feeds_of_oneLine (by rintro rfl; cases hk) (by simpa using hc)
  · split
    · exact feeds_of_oneLine (by simp [run]) (not_mem_run (by decide) (by decide) cs)
    · exact feeds_of_oneLine (by simp [run]) (not_mem_run (by decide) (by decide) cs)
    · exact ⟨fun _ => .inl rfl, fun h => absurd rfl h⟩
    · exact feeds_carriageReturn cs
    · exact feeds_hash glued cs
    · exact feeds_dashes cs
    · exact feeds_of_quote (hne _ (quotes_doubleQuoted cs).kind) (.inl rfl)
    · exact feeds_of_quote (hne _ (quotes_singleQuoted cs).kind) (.inr rfl)
    · next hn _ _ _ _ _ =>
      have hc : '\n' ≠ c := fun h => hn h.symm
      split
      · exact feeds_of_oneLine (by simp) (by simpa using hc)
      · exact feeds_of_oneLine (hne _ (kind_plain c cs))
          (not_mem_run (k := .text) hc (by decide) cs)

theorem feeds_of_mem_scanFrom (glued : Bool) (s : List Char) : ∀ t ∈ scanFrom glued s, t.Feeds := by
  fun_induction scanFrom glued s with
  | case1 => simp
  | case2 glued c cs l ih =>
    intro t ht
    rcases List.mem_cons.1 ht with rfl | ht
    · exact feeds_lexeme glued c cs
    · exact ih t ht

structure Scanned (t : Token) : Prop where
  regular : t.Regular
  feeds : t.Feeds

theorem scanned_of_mem_scan {s : List Char} {t : Token} (h : t ∈ scan s) : t.Scanned := by
  have hl := lexed_scanFrom false s
  obtain ⟨us, vs, hs⟩ := List.append_of_mem h
  rw [← scan, hs] at hl
  exact ⟨(lexed_of_append hl).1, feeds_of_mem_scanFrom false s t h⟩

end Token

end LosslessYaml
