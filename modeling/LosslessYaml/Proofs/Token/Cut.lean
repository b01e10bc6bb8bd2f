import LosslessYaml.Proofs.Token.Standing

namespace LosslessYaml

namespace Token

/-- Texts between which no line break is torn apart. -/
def Parted (u v : List Char) : Prop := u.getLast? = some '\r' → v.head? ≠ some '\n'

theorem parted_of_ne {u : List Char} {c : Char} (hc : c ≠ '\r') (v : List Char) :
    Parted (u ++ [c]) v := by
  intro h
  rw [List.getLast?_concat] at h
  exact absurd (Option.some.inj h) hc

theorem parted_of_not_mem {u : List Char} (h : '\r' ∉ u) (v : List Char) : Parted u v :=
  fun hu => absurd (List.mem_of_getLast? hu) h

theorem Unclosed.parted {rest : List Char} (h : Unclosed rest) (u : List Char) : Parted u rest := by
  intro _
  rcases h with rfl | rfl | ⟨cs, rfl⟩ <;> simp

theorem closed_doubleQuoted (cs : List Char) :
    (doubleQuoted cs).kind = .quoted → ∃ v, (doubleQuoted cs).tail = v ++ ['"'] := by
  fun_induction doubleQuoted cs with
  | case1 =>
    intro h
    cases h
  | case2 cs => exact fun _ => ⟨[], rfl⟩
  | case3 cs =>
    intro h
    cases h
  | case4 c cs _ ih =>
    intro h
    obtain ⟨v, hv⟩ := ih h
    exact ⟨'\\' :: c :: v, congrArg ('\\' :: c :: ·) hv⟩
  | case5 =>
    intro h
    cases h
  | case6 c cs _ _ _ _ ih =>
    intro h
    obtain ⟨v, hv⟩ := ih h
    exact ⟨c :: v, congrArg (c :: ·) hv⟩

theorem closed_singleQuoted (cs : List Char) :
    (singleQuoted cs).kind = .quoted → ∃ v, (singleQuoted cs).tail = v ++ ['\''] := by
  fun_induction singleQuoted cs with
  | case1 =>
    intro h
    cases h
  | case2 cs ih =>
    intro h
    obtain ⟨v, hv⟩ := ih h
    exact ⟨'\'' :: '\'' :: v, congrArg ('\'' :: '\'' :: ·) hv⟩
  | case3 cs _ => exact fun _ => ⟨[], rfl⟩
  | case4 c cs _ _ ih =>
    intro h
    obtain ⟨v, hv⟩ := ih h
    exact ⟨c :: v, congrArg (c :: ·) hv⟩

theorem Quotes.parted {l : Lexeme} {c q : Char} (h : Quotes l) (hq : q ≠ '\r')
    (hc : l.kind = .quoted → ∃ v, l.tail = v ++ [q]) : Parted (c :: l.tail) l.rest := by
  rcases h with h | ⟨-, h⟩
  · obtain ⟨v, hv⟩ := hc h
    rw [hv]
    exact parted_of_ne (u := c :: v) hq l.rest
  · exact h.parted _

theorem parted_run {k : Kind} {p : Char → Bool} {c : Char} (hc : '\r' ≠ c) (hp : p '\r' = false)
    (cs : List Char) : Parted (c :: (run k p cs).tail) (run k p cs).rest := by
  apply parted_of_not_mem
  simp only [List.mem_cons, not_or]
  refine ⟨hc, fun h => ?_⟩
  have hall := List.all_eq_true.1 List.all_takeWhile _ h
  rw [hp] at hall
  cases hall

theorem parted_carriageReturn (cs : List Char) :
    Parted ('\r' :: (carriageReturn cs).tail) (carriageReturn cs).rest := by
  unfold carriageReturn
  split
  · exact parted_of_ne (u := ['\r']) (by decide) _
  · next h =>
    intro _ hcs
    cases cs with
    | nil => simp at hcs
    | cons c cs => exact h cs (by rw [← Option.some.inj hcs])

theorem parted_lexeme (glued : Bool) (c : Char) (cs : List Char) :
    Parted (c :: (lexeme glued c cs).tail) (lexeme glued c cs).rest := by
  unfold lexeme
  split
  · next h =>
    refine parted_of_ne (u := []) ?_ cs
    rintro rfl
    cases h
  · split
    · exact parted_run (by decide) (by decide) cs
    · exact parted_run (by decide) (by decide) cs
    · exact parted_of_ne (u := []) (by decide) cs
    · exact parted_carriageReturn cs
    · cases glued with
      | true => exact parted_of_ne (u := []) (by decide) cs
      | false => exact parted_run (k := .comment) (by decide) (by decide) cs
    · unfold dashes
      split
      · exact parted_of_ne (u := ['-', '-']) (by decide) _
      · exact parted_of_ne (u := []) (by decide) _
    · exact (quotes_doubleQuoted cs).parted (by decide) (closed_doubleQuoted cs)
    · exact (quotes_singleQuoted cs).parted (by decide) (closed_singleQuoted cs)
    · next hr _ _ _ _ =>
      have hc : '\r' ≠ c := fun h => hr h.symm
      split
      · exact parted_of_ne (u := []) hc.symm cs
      · exact parted_run (k := .text) hc (by decide) cs

theorem parted_scanFrom {glued : Bool} {s : List Char} {ts us : List Token}
    (h : scanFrom glued s = ts ++ us) : Parted (textOf ts) (textOf us) := by
  induction ts generalizing glued s with
  | nil => exact nofun
  | cons t ts ih =>
    cases s with
    | nil => simp [scanFrom] at h
    | cons c cs =>
      rw [scanFrom, List.cons_append] at h
      obtain ⟨rfl, hs⟩ := List.cons.inj h
      have hrest := textOf_scanFrom (glues (lexeme glued c cs).kind) (lexeme glued c cs).rest
      rw [hs] at hrest
      cases hts : textOf ts with
      | nil =>
        rw [textOf_append, hts, List.nil_append] at hrest
        rw [textOf_cons, hts, List.append_nil, hrest]
        exact parted_lexeme glued c cs
      | cons d ds =>
        have hp := ih hs
        rw [hts] at hp
        intro hl
        rw [textOf_cons, hts, List.getLast?_append, List.getLast?_cons] at hl
        exact hp (by rw [List.getLast?_cons]; exact hl)

end Token

end LosslessYaml
