import LosslessYaml.Proofs.Boundary.Block
import LosslessYaml.Proofs.Layout.Line
import LosslessYaml.Proofs.Token.LineFeed

namespace LosslessYaml

namespace Text

def BlankLine (s : List Char) : Prop :=
  ['\n'] <+: s.dropWhile isBlank ∨ ['\r', '\n'] <+: s.dropWhile isBlank

instance (s : List Char) : Decidable (BlankLine s) := inferInstanceAs (Decidable (_ ∨ _))

def indentation (s : List Char) : Nat := (s.takeWhile isBlank).length

def LineReaches (m : Nat) (s : List Char) : Prop := BlankLine s ∨ m ≤ indentation s

theorem indentation_append_le (s t : List Char) : indentation s ≤ indentation (s ++ t) := by
  rw [indentation, indentation, List.takeWhile_append]
  split
  · next h => rw [List.length_append, h]; exact Nat.le_add_right _ _
  · exact Nat.le_refl _

theorem BlankLine.append {s : List Char} (h : BlankLine s) (t : List Char) : BlankLine (s ++ t) := by
  have hne : s.dropWhile isBlank ≠ [] := by
    intro hn
    rcases h with h | h <;> simp [hn] at h
  have hd : (s ++ t).dropWhile isBlank = s.dropWhile isBlank ++ t := by
    rw [List.dropWhile_append, if_neg (by simpa using hne)]
  rw [BlankLine, hd]
  rcases h with h | h
  · exact .inl (h.trans (List.prefix_append _ t))
  · exact .inr (h.trans (List.prefix_append _ t))

theorem LineReaches.append {m : Nat} {s : List Char} (h : LineReaches m s) (t : List Char) :
    LineReaches m (s ++ t) := by
  rcases h with h | h
  · exact .inl (h.append t)
  · exact .inr (Nat.le_trans h (indentation_append_le s t))

theorem blankLine_append_blanks {s : List Char} (h : ∀ c ∈ s, isBlank c = true) (t : List Char) :
    BlankLine (s ++ t) ↔ BlankLine t := by
  rw [BlankLine, BlankLine, List.dropWhile_append_of_pos h]

theorem indentation_append_blanks {s : List Char} (h : ∀ c ∈ s, isBlank c = true) (t : List Char) :
    indentation (s ++ t) = s.length + indentation t := by
  rw [indentation, indentation, List.takeWhile_append_of_pos h, List.length_append]

end Text

namespace Token

theorem textOf_cut {ts : List Token} {a b : List Char} {c : Char} (h : textOf ts = a ++ c :: b) :
    ∃ before t after x y, ts = before ++ t :: after ∧ t.text = x ++ c :: y ∧
      a = textOf before ++ x ∧ b = y ++ textOf after := by
  induction ts generalizing a with
  | nil => simp at h
  | cons t ts ih =>
    rw [textOf_cons] at h
    rcases List.append_eq_append_iff.1 h with ⟨x, rfl, hx⟩ | ⟨x, ht, hx⟩
    · obtain ⟨before, t', after, x', y, rfl, ht', rfl, hb⟩ := ih hx
      exact ⟨t :: before, t', after, x', y, rfl, ht', by simp, hb⟩
    · cases x with
      | nil =>
        obtain ⟨before, t', after, x', y, rfl, ht', hx', hb⟩ := ih (a := []) hx.symm
        refine ⟨t :: before, t', after, x', y, rfl, ht', ?_, hb⟩
        rw [textOf_cons, List.append_assoc, ← hx', List.append_nil, ht, List.append_nil]
      | cons d x =>
        obtain ⟨rfl, rfl⟩ := List.cons.inj hx
        exact ⟨[], t, ts, a, x, rfl, ht, rfl, rfl⟩

def FeedInQuote (ts : List Token) (a : List Char) : Prop :=
  ∃ before t after x y, ts = before ++ t :: after ∧ t.OpensQuote ∧ t.text = x ++ '\n' :: y ∧
    a = textOf before ++ x

end Token

theorem Placed.behind_left {u : List Char} {ts us : List Placed} (h : Behind u (ts ++ us)) :
    Behind u ts := by
  induction ts generalizing u with
  | nil => trivial
  | cons t ts ih => exact ⟨h.1, h.2.1, ih h.2.2⟩

namespace Grammar

open Rule LosslessYaml.Tree

/-- Behind blanks and line breaks, the tokens go on in column `m` or to the right of it. -/
def Resumes (m : Nat) (us : List Placed) : Prop :=
  ∃ gap t rest, us = gap ++ t :: rest ∧ (∀ g ∈ gap, isLineGap g.kind = true) ∧ m ≤ t.column

def Indented (m : Nat) (us : List Placed) : Prop :=
  ∀ before t after, us = before ++ t :: after → t.kind = .newline → Resumes m after

section Indented

variable {m : Nat} {t : Placed} {us vs : List Placed}

theorem Resumes.cons (h : Resumes m us) (ht : isLineGap t.kind = true) : Resumes m (t :: us) := by
  obtain ⟨gap, x, rest, rfl, hgap, hx⟩ := h
  refine ⟨t :: gap, x, rest, rfl, ?_, hx⟩
  intro g hg
  rcases List.mem_cons.1 hg with rfl | hg
  · exact ht
  · exact hgap g hg

theorem resumes_of_le (h : m ≤ t.column) (us : List Placed) : Resumes m (t :: us) :=
  ⟨[], t, us, rfl, by simp, h⟩

theorem Resumes.append (h : Resumes m us) (vs : List Placed) : Resumes m (us ++ vs) := by
  obtain ⟨gap, x, rest, rfl, hgap, hx⟩ := h
  exact ⟨gap, x, rest ++ vs, by simp, hgap, hx⟩

theorem indented_nil : Indented m [] := by
  intro before t after h
  simp at h

theorem Indented.cons (h : Indented m us) (ht : t.kind = .newline → Resumes m us) :
    Indented m (t :: us) := by
  intro before x after hx hk
  cases before with
  | nil =>
    obtain ⟨rfl, rfl⟩ := List.cons.inj hx
    exact ht hk
  | cons b before =>
    obtain ⟨-, rfl⟩ := List.cons.inj hx
    exact h before x after rfl hk

theorem Indented.after_line (h : Indented m us) (hv : ∀ v ∈ vs, v.kind ≠ .newline) :
    Indented m (vs ++ us) := by
  induction vs with
  | nil => exact h
  | cons v vs ih =>
    apply Indented.cons
    · exact ih fun x hx => hv x (List.mem_cons_of_mem _ hx)
    · intro hk
      exact absurd hk (hv v List.mem_cons_self)

end Indented

section Plain

/-- Behind blanks and line breaks, a line of a plain scalar starts in column `min` or to the right of it. -/
def Awaits (min : Nat) (ts : List Placed) : Prop :=
  ∃ gap t rest, ts = gap ++ t :: rest ∧ (∀ g ∈ gap, isLineGap g.kind = true) ∧
    isLineGap t.kind = false ∧ atLineEnd (t :: rest) = false ∧ min ≤ t.column

variable {min : Nat} {t : Placed} {ts : List Placed}

theorem Awaits.tail (h : Awaits min (t :: ts)) (ht : isLineGap t.kind = true) : Awaits min ts := by
  obtain ⟨gap, x, rest, hx, hgap, hk, hl, hm⟩ := h
  cases gap with
  | nil =>
    obtain ⟨rfl, -⟩ := List.cons.inj hx
    rw [hk] at ht
    cases ht
  | cons g gap =>
    obtain ⟨-, rfl⟩ := List.cons.inj hx
    exact ⟨gap, x, rest, rfl, fun y hy => hgap y (List.mem_cons_of_mem _ hy), hk, hl, hm⟩

theorem Awaits.head (h : Awaits min (t :: ts)) (ht : isLineGap t.kind = false) :
    atLineEnd (t :: ts) = false ∧ min ≤ t.column := by
  obtain ⟨gap, x, rest, hx, hgap, -, hl, hm⟩ := h
  cases gap with
  | nil =>
    obtain ⟨rfl, rfl⟩ := List.cons.inj hx
    exact ⟨hl, hm⟩
  | cons g gap =>
    obtain ⟨rfl, -⟩ := List.cons.inj hx
    rw [hgap t List.mem_cons_self] at ht
    cases ht

theorem awaits_of_plainContinues (h : plainContinues min (t :: ts) = true) : Awaits min ts := by
  have ht := isLineGap_of_plainContinues h
  simp only [plainContinues, List.dropWhile_cons, ht, if_true, Bool.and_eq_true,
    decide_eq_true_eq] at h
  obtain ⟨⟨⟨⟨⟨-, heof⟩, hcomment⟩, hcol⟩, -⟩, -⟩ := h
  have hcut := List.takeWhile_append_dropWhile (p := (isLineGap ·.kind)) (l := ts)
  cases hd : ts.dropWhile (isLineGap ·.kind) with
  | nil => simp [hd] at heof
  | cons x rest =>
    have hx := List.head_dropWhile_not (p := (isLineGap ·.kind)) (l := ts) (by simp [hd])
    simp only [hd, List.head_cons] at hx
    rw [hd] at hcut heof hcomment hcol
    refine ⟨_, x, rest, hcut.symm, List.all_eq_true.1 List.all_takeWhile, hx, ?_, hcol⟩
    have hw : x.kind ≠ .whitespace := fun hw => by simp [hw, isLineGap] at hx
    have hn : x.kind ≠ .newline := fun hn => by simp [hn, isLineGap] at hx
    rw [next_cons] at heof hcomment
    simp_all [atLineEnd, pastBlank]

theorem indented_plainRest (gap : Bool) (h : gap = true → Awaits min ts) :
    ∃ us, ts = us ++ (plainRest min gap ts).rest ∧
      leavesOf (plainRest min gap ts).trees = us.map Placed.token ∧
      Indented min us ∧ (gap = true → Resumes min us) := by
  induction ts generalizing gap with
  | nil =>
    refine ⟨[], rfl, rfl, indented_nil, fun hg => ?_⟩
    obtain ⟨gap, x, rest, hx, -⟩ := h hg
    simp at hx
  | cons t ts ih =>
    cases hgap : (gap && isLineGap t.kind) with
    | true =>
      have hg := hgap
      simp only [Bool.and_eq_true] at hg
      obtain ⟨us, hus, hleaves, hind, hres⟩ := ih true fun _ => (h hg.1).tail hg.2
      rw [plainRest_gap hgap]
      refine ⟨t :: us, congrArg (t :: ·) hus, congrArg (t.token :: ·) hleaves,
        hind.cons fun _ => hres rfl, fun _ => (hres rfl).cons hg.2⟩
    | false =>
      cases hend : atLineEnd (t :: ts) with
      | false =>
        obtain ⟨us, hus, hleaves, hind, -⟩ := ih false nofun
        rw [plainRest_line hgap hend]
        refine ⟨t :: us, congrArg (t :: ·) hus, congrArg (t.token :: ·) hleaves,
          hind.cons fun hk => ?_, fun hg => ?_⟩
        · have hn : atLineEnd (t :: ts) = true := atLineEnd_of_newline hk
          rw [hn] at hend
          cases hend
        · rw [hg, Bool.true_and] at hgap
          exact resumes_of_le ((h hg).head hgap).2 us
      | true =>
        -- inside of a gap a line follows, so that only a scalar on its line comes here
        have hfalse : gap = false := by
          cases hg : gap with
          | false => rfl
          | true =>
            rw [hg, Bool.true_and] at hgap
            rw [((h hg).head hgap).1] at hend
            cases hend
        subst hfalse
        cases hcont : plainContinues min (t :: ts) with
        | true =>
          obtain ⟨us, hus, hleaves, hind, hres⟩ := ih true fun _ => awaits_of_plainContinues hcont
          rw [plainRest_below hgap hend hcont]
          exact ⟨t :: us, congrArg (t :: ·) hus, congrArg (t.token :: ·) hleaves,
            hind.cons fun _ => hres rfl, nofun⟩
        | false =>
          rw [plainRest_end hgap hend hcont]
          exact ⟨[], rfl, rfl, indented_nil, nofun⟩

end Plain

section Content

variable {min : Nat} {ts : List Placed}

theorem kind_of_mem_lineOf {t : Placed} (h : t ∈ lineOf ts) : t.kind ≠ .newline :=
  of_decide_eq_true (List.all_eq_true.1 List.all_takeWhile t h)

theorem kind_of_afterLine {t : Placed} {us : List Placed} (h : afterLine ts = t :: us) :
    t.kind = .newline := by
  rw [afterLine] at h
  have ht := List.head_dropWhile_not (p := fun t : Placed => decide (t.kind ≠ .newline)) (l := ts)
    (by rw [h]; exact List.cons_ne_nil t us)
  simp only [h, List.head_cons, decide_eq_false_iff_not, Decidable.not_not] at ht
  exact ht

theorem lineOf_append_afterLine (ts : List Placed) : ts = lineOf ts ++ afterLine ts :=
  List.takeWhile_append_dropWhile.symm

theorem take_line {t : Placed} {us : List Placed} (h : afterLine ts = t :: us) (n : Nat) :
    ts.take ((lineOf ts).length + 1 + n) = lineOf ts ++ t :: us.take n := by
  have hs := congrArg (List.take ((lineOf ts).length + (n + 1))) (lineOf_append_afterLine ts)
  rw [h, List.take_length_add_append, List.take_succ_cons] at hs
  rw [Nat.add_assoc, Nat.add_comm 1 n]
  exact hs

theorem take_lineOf (ts : List Placed) : ts.take (lineOf ts).length = lineOf ts := by
  have hs := congrArg (List.take (lineOf ts).length) (lineOf_append_afterLine ts)
  rwa [List.take_left] at hs

theorem resumes_of_blank {us : List Placed} (h : pastBlank us = []) {vs : List Placed}
    (hv : Resumes min vs) : Resumes min (us ++ vs) := by
  match us, h with
  | [], _ => exact hv
  | [t], h =>
    have hk : t.kind = .whitespace := by
      apply Decidable.byContradiction
      intro hk
      simp [pastBlank, hk] at h
    exact hv.cons (by simp [hk, isLineGap])
  | t :: u :: us, h =>
    by_cases hk : t.kind = .whitespace <;> simp [pastBlank, hk] at h

theorem resumes_of_pastBlank {first : Placed} {us rest : List Placed}
    (h : pastBlank us = first :: rest) (hm : min ≤ first.column) : Resumes min us := by
  cases us with
  | nil => simp [pastBlank] at h
  | cons t us =>
    by_cases hk : t.kind = .whitespace
    · simp only [pastBlank, hk, if_true] at h
      rw [h]
      exact (resumes_of_le hm rest).cons (by simp [hk, isLineGap])
    · simp only [pastBlank, hk, if_false] at h
      rw [h]
      exact resumes_of_le hm rest

theorem indented_content {indent : Option Nat} {n : Nat}
    (h : contentLength? min indent ts = some n) :
    Indented min (ts.take n) ∧ Resumes min (ts.take n) := by
  induction hl : ts.length using Nat.strongRecOn generalizing ts indent n with
  | ind k ih =>
    have hline (vs : List Placed) (hv : Indented min vs) : Indented min (lineOf ts ++ vs) :=
      hv.after_line fun _ => kind_of_mem_lineOf
    cases ha : afterLine ts with
    | nil =>
      rw [contentLength?_last _ _ ha] at h
      split at h
      · cases h
      · next first rest hp =>
        split at h
        · cases h
        · next hcol =>
          cases h
          simp only [Bool.or_eq_true, decide_eq_true_eq, not_or, Nat.not_lt] at hcol
          rw [take_lineOf]
          refine ⟨?_, resumes_of_pastBlank hp hcol.1.2⟩
          simpa using hline [] indented_nil
    | cons t us =>
      have hk := kind_of_afterLine ha
      have hgap : isLineGap t.kind = true := by simp [hk, isLineGap]
      have hlt : us.length < k := hl ▸ length_tail_afterLine _ _ _ ha
      rw [contentLength?_line min indent ha] at h
      split at h
      · next hp =>
        -- a blank line, behind which the content resumes
        obtain ⟨n', hn', rfl⟩ := Option.map_eq_some_iff.1 h
        obtain ⟨hind, hres⟩ := ih _ hlt hn' rfl
        rw [take_line ha]
        exact ⟨hline _ (hind.cons fun _ => hres), resumes_of_blank hp (hres.cons hgap)⟩
      · next first rest hp =>
        split at h
        · cases h
        · next hcol =>
          simp only [Bool.or_eq_true, decide_eq_true_eq, not_or, Nat.not_lt] at hcol
          have hfirst := resumes_of_pastBlank hp hcol.1.2
          split at h
          · next n' hn' =>
            cases h
            obtain ⟨hind, hres⟩ := ih _ hlt hn' rfl
            rw [take_line ha]
            exact ⟨hline _ (hind.cons fun _ => hres), hfirst.append _⟩
          · cases h
            rw [take_lineOf]
            refine ⟨?_, hfirst⟩
            simpa using hline [] indented_nil

end Content

section Lines

open Text
open Placed (Behind)

variable {m : Nat} {u : List Char} {us : List Placed}

theorem lineReaches_of_resumes (hr : ∀ t ∈ us, t.token.Scanned) (hb : Behind u us)
    (h : Resumes m us) :
    BlankLine (Token.textOf (us.map Placed.token)) ∨
      m ≤ Text.column u + indentation (Token.textOf (us.map Placed.token)) := by
  obtain ⟨gap, t, rest, rfl, hgap, hm⟩ := h
  induction gap generalizing u with
  | nil =>
    have hc : t.column = Text.column u := hb.1
    exact .inr (by omega)
  | cons g gap ih =>
    obtain ⟨hreg, hfeeds⟩ := hr g List.mem_cons_self
    rw [List.cons_append, List.map_cons, Token.textOf_cons]
    by_cases hk : g.kind = .newline
    · left
      rcases hfeeds.isBreak hk with ht | ht
      · rw [ht]
        exact .inl ⟨_, rfl⟩
      · rw [ht]
        exact .inr ⟨_, rfl⟩
    · have hw : g.kind = .whitespace := by
        have hg := hgap g List.mem_cons_self
        revert hg hk
        cases g.kind <;> simp [isLineGap]
      have hblank := hreg.blank hw
      have hline : '\n' ∉ g.token.text := fun hn => absurd (hblank _ hn) (by decide)
      rw [blankLine_append_blanks hblank, indentation_append_blanks hblank, ← Nat.add_assoc,
        ← Text.column_append hline]
      exact ih (fun x hx => hr x (List.mem_cons_of_mem _ hx)) hb.2.2
        fun x hx => hgap x (List.mem_cons_of_mem _ hx)

theorem lineReaches_of_indented (hr : ∀ t ∈ us, t.token.Scanned)
    (hb : Behind u us) (hi : Indented m us) {a b : List Char}
    (h : Token.textOf (us.map Placed.token) = a ++ '\n' :: b) :
    LineReaches m b ∨ Token.FeedInQuote (us.map Placed.token) a := by
  obtain ⟨before, t, after, x, y, hts, ht, rfl, rfl⟩ := Token.textOf_cut h
  obtain ⟨vs, ws, rfl, rfl, hws⟩ := List.map_eq_append_iff.1 hts
  obtain ⟨w, ws, rfl, rfl, rfl⟩ := List.map_eq_cons_iff.1 hws
  obtain ⟨-, hfeeds⟩ := hr w (by simp)
  by_cases hk : w.kind = .newline
  · left
    obtain rfl := (hfeeds.isBreak hk).cut ht
    have hcol : Text.column (u ++ (Token.textOf (vs.map Placed.token) ++ w.text)) = 0 := by
      rw [show w.text = x ++ ['\n'] from ht, ← List.append_assoc, ← List.append_assoc, Text.column,
        Text.lastLine_concat, if_pos rfl]
      rfl
    have hbehind := (Placed.behind_of_append hb).2.2
    rw [List.append_assoc] at hbehind
    have hafter := lineReaches_of_resumes (fun t h => hr t (by simp [h])) hbehind
      (hi vs w ws rfl hk)
    rw [hcol, Nat.zero_add] at hafter
    exact hafter
  · exact .inr ⟨_, _, _, x, y, hts, hfeeds.opensQuote hk (by simp [ht]), ht, rfl⟩

end Lines

end Grammar

end LosslessYaml
