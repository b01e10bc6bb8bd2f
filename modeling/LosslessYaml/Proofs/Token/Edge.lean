import LosslessYaml.Proofs.Token.Cut
import Mathlib.Data.List.Chain

namespace LosslessYaml

namespace Text

def isGap (c : Char) : Bool := isBlank c || c = '\n'

theorem isGap_eq_false {c : Char} : isGap c = false ↔ isBlank c = false ∧ c ≠ '\n' := by
  simp [isGap]

end Text

namespace Token

open Text

/-- The two ends of a token that starts with `c`. -/
structure Lexeme.Edged (c : Char) (l : Lexeme) : Prop where
  starts : isBlank c = true → l.kind = .whitespace
  feeds : c = '\n' → l.kind = .newline
  returns : c = '\r' → l.kind ≠ .newline → l.tail = []
  blanks : l.kind = .whitespace → ∀ x ∈ l.rest.head?, isBlank x = false
  bracket : l.kind = .rbracket → c :: l.tail = [']']
  brace : l.kind = .rbrace → c :: l.tail = ['}']
  bare : l.kind.isTrivia = false → ∀ x ∈ (c :: l.tail).getLast?, isGap x = true → Unclosed l.rest

namespace Lexeme

variable {c : Char} {l : Lexeme}

theorem edged_of_bare (hc : isGap c = false) (hr : c = '\r' → l.kind ≠ .newline → l.tail = [])
    (hk : l.kind ∉ [Kind.whitespace, .rbracket, .rbrace])
    (h : l.kind.isTrivia = false → ∀ x ∈ (c :: l.tail).getLast?, isGap x = true → Unclosed l.rest) : l.Edged c := by
  obtain ⟨hb, hn⟩ := isGap_eq_false.1 hc
  simp only [List.mem_cons, List.not_mem_nil, or_false, not_or] at hk
  exact {
    starts := fun h => by rw [hb] at h; cases h
    feeds := fun h => absurd h hn
    returns := hr
    blanks := fun h => absurd h hk.1
    bracket := fun h => absurd h hk.2.1
    brace := fun h => absurd h hk.2.2
    bare := h }

theorem edged_of_single {k : Kind} {cs : List Char} (hc : isGap c = false)
    (hk : k ∉ [Kind.whitespace, .rbracket, .rbrace]) : (Lexeme.mk k [] cs).Edged c := by
  refine edged_of_bare hc (fun _ _ => rfl) hk ?_
  intro _ x hx hgap
  rw [List.getLast?_singleton, Option.mem_some] at hx
  rw [← hx, hc] at hgap
  cases hgap

theorem edged_of_getLast? {x : Char} (hc : isGap c = false) (hr : c ≠ '\r')
    (hk : l.kind ∉ [Kind.whitespace, .rbracket, .rbrace]) (hx : (c :: l.tail).getLast? = some x)
    (hg : isGap x = false) : l.Edged c := by
  refine edged_of_bare hc (fun h => absurd h hr) hk ?_
  intro _ y hy hgap
  rw [hx, Option.mem_some] at hy
  rw [← hy, hg] at hgap
  cases hgap

end Lexeme

open Lexeme

theorem edged_of_indicator {c : Char} {k : Kind} (h : indicator? c = some k) (cs : List Char) :
    (Lexeme.mk k [] cs).Edged c := by
  have hc : isGap c = false ∧ c ≠ '\r' ∧ k ≠ .whitespace ∧ (k = .rbracket → c = ']') ∧ (k = .rbrace → c = '}') := by
    unfold indicator? at h
    split at h <;> cases h <;> decide
  obtain ⟨hgap, hr, hw, hbracket, hbrace⟩ := hc
  obtain ⟨hb, hn⟩ := isGap_eq_false.1 hgap
  exact {
    starts := fun h => by rw [hb] at h; cases h
    feeds := fun h => absurd h hn
    returns := fun _ _ => rfl
    blanks := fun h => absurd h hw
    bracket := fun h => by rw [hbracket h]
    brace := fun h => by rw [hbrace h]
    bare := fun _ x hx h => by
      rw [List.getLast?_singleton, Option.mem_some] at hx
      rw [← hx, hgap] at h
      cases h }

theorem edged_blanks {c : Char} (hc : isBlank c = true) (cs : List Char) :
    (run .whitespace isBlank cs).Edged c where
  starts _ := rfl
  feeds h := by subst h; exact absurd hc (by decide)
  returns h := by subst h; exact absurd hc (by decide)
  blanks _ x hx := by
    have hd : (cs.dropWhile isBlank).head? = some x := hx
    simpa [hd] using List.head?_dropWhile_not isBlank cs
  bracket := nofun
  brace := nofun
  bare := nofun

theorem edged_carriageReturn (cs : List Char) : (carriageReturn cs).Edged '\r' := by
  unfold carriageReturn
  split
  · exact edged_of_bare (by decide) (fun _ h => absurd rfl h) (by simp) nofun
  · exact edged_of_single (by decide) (by simp)

theorem edged_hash (glued : Bool) (cs : List Char) : (hash glued cs).Edged '#' := by
  cases glued with
  | true => exact edged_of_getLast? (x := '#') (by decide) (by decide) (by simp [hash]) rfl (by decide)
  | false => exact edged_of_bare (by decide) (by simp) (by simp [hash, run]) (by simp [hash, run, Kind.isTrivia])

theorem edged_dashes (cs : List Char) : (dashes cs).Edged '-' := by
  unfold dashes
  split <;> exact edged_of_getLast? (x := '-') (by decide) (by decide) (by simp) rfl (by decide)

theorem Quotes.edged {l : Lexeme} {q : Char} (h : Quotes l) (hq : q = '"' ∨ q = '\'')
    (hc : l.kind = .quoted → ∃ v, l.tail = v ++ [q]) : l.Edged q := by
  have hgap : isGap q = false := by rcases hq with rfl | rfl <;> decide
  have hr : q ≠ '\r' := by rcases hq with rfl | rfl <;> decide
  rcases h with h | ⟨h, hu⟩
  · obtain ⟨v, hv⟩ := hc h
    refine edged_of_getLast? hgap hr (by simp [h]) ?_ hgap
    rw [hv, ← List.cons_append, List.getLast?_concat]
  · exact edged_of_bare hgap (fun h => absurd h hr) (by simp [h]) fun _ _ _ _ => hu

theorem isGap_of_isSpace {c : Char} (h : isSpace c = false) : isGap c = false := by
  cases hc : isGap c with
  | false => rfl
  | true =>
    simp only [isGap, isBlank, Bool.or_eq_true, decide_eq_true_eq] at hc
    rcases hc with (rfl | rfl) | rfl <;> exact absurd h (by decide)

theorem edged_plain {c : Char} (hc : isSpace c = false) (cs : List Char) : (plain c cs).Edged c := by
  have hgap := isGap_of_isSpace hc
  have hr : c ≠ '\r' := by
    rintro rfl
    exact absurd hc (by decide)
  obtain ⟨x, hx⟩ : ∃ x, (c :: (plain c cs).tail).getLast? = some x :=
    ⟨_, List.getLast?_eq_getLast_of_ne_nil (List.cons_ne_nil _ _)⟩
  have hkind : ∀ k ∈ scalarKinds, k ∉ [Kind.whitespace, .rbracket, .rbrace] := by decide
  refine edged_of_getLast? hgap hr (hkind _ (kind_plain c cs)) hx ?_
  rcases List.mem_cons.1 (List.mem_of_getLast? hx) with rfl | hmem
  · exact hgap
  · have hp : isPlain x = true := List.all_eq_true.1 List.all_takeWhile x hmem
    apply isGap_of_isSpace
    simp only [isPlain, Bool.and_eq_true, Bool.not_eq_true'] at hp
    exact hp.1.1.1.1.1

theorem edged_lexeme (glued : Bool) (c : Char) (cs : List Char) : (lexeme glued c cs).Edged c := by
  unfold lexeme
  split
  · next h => exact edged_of_indicator h cs
  · split
    · exact edged_blanks (by decide) cs
    · exact edged_blanks (by decide) cs
    · exact ⟨by simp [isBlank], fun _ => rfl, by simp, nofun, nofun, nofun, nofun⟩
    · exact edged_carriageReturn cs
    · exact edged_hash glued cs
    · exact edged_dashes cs
    · exact (quotes_doubleQuoted cs).edged (.inl rfl) (closed_doubleQuoted cs)
    · exact (quotes_singleQuoted cs).edged (.inr rfl) (closed_singleQuoted cs)
    · next hspace htab hfeed _ _ _ _ _ =>
      split
      · refine edged_of_single ?_ (by simp)
        simp only [isGap, isBlank, Bool.or_eq_false_iff, decide_eq_false_iff_not]
        exact ⟨⟨hspace, htab⟩, hfeed⟩
      · next hs => exact edged_plain (by simpa using hs) cs

theorem exists_edged {glued : Bool} {s : List Char} {t : Token} {ts us : List Token}
    (h : scanFrom glued s = ts ++ t :: us) :
    ∃ (c : Char) (l : Lexeme), t = ⟨l.kind, c :: l.tail⟩ ∧ textOf us = l.rest ∧ l.Edged c := by
  induction ts generalizing glued s with
  | nil =>
    cases s with
    | nil => simp [scanFrom] at h
    | cons c cs =>
      rw [scanFrom, List.nil_append] at h
      obtain ⟨rfl, rfl⟩ := List.cons.inj h
      exact ⟨c, lexeme glued c cs, rfl, textOf_scanFrom _ _, edged_lexeme glued c cs⟩
  | cons x ts ih =>
    cases s with
    | nil => simp [scanFrom] at h
    | cons c cs =>
      rw [scanFrom, List.cons_append] at h
      exact ih (List.cons.inj h).2

theorem byteLength_text_pos {s : List Char} {t : Token} {ts us : List Token} (h : scan s = ts ++ t :: us) :
    0 < Text.byteLength t.text := by
  obtain ⟨c, l, rfl, -⟩ := exists_edged h
  have := c.utf8Size_pos
  rw [Text.byteLength_cons]
  omega

def Apart (t u : Token) : Prop := t.kind = .whitespace → u.kind ≠ .whitespace

theorem apart_of_scan {s : List Char} {t u : Token} {ts us : List Token} (h : scan s = ts ++ t :: u :: us) :
    Apart t u := by
  intro ht hu
  obtain ⟨c, l, rfl, hrest, hl⟩ := exists_edged h
  have hreg : u.Regular := by
    have hlexed : Lexed (ts ++ (⟨l.kind, c :: l.tail⟩ :: u :: us)) := h ▸ lexed_scanFrom false s
    exact (lexed_of_append hlexed).2.2.1
  obtain ⟨x, xs, hx⟩ := List.exists_cons_of_ne_nil hreg.nonempty
  rw [textOf_cons, hx] at hrest
  have hblank := hreg.blank hu x (hx ▸ List.mem_cons_self)
  rw [hl.blanks ht x (hrest ▸ rfl)] at hblank
  cases hblank

theorem isChain_scan (s : List Char) : (scan s).IsChain Apart := by
  rw [List.isChain_iff_forall_rel_of_append_cons_cons]
  exact fun t u ts us => apart_of_scan

end Token

end LosslessYaml
