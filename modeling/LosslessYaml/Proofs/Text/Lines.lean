import LosslessYaml.Document

namespace LosslessYaml

namespace Text

def AtLineStart (s : List Char) : Prop := s = [] ∨ ∃ v, s = v ++ ['\n']

theorem atLineStart_concat (v : List Char) : AtLineStart (v ++ ['\n']) := .inr ⟨v, rfl⟩

theorem AtLineStart.append {u v : List Char} (hu : AtLineStart u) (hv : AtLineStart v) :
    AtLineStart (u ++ v) := by
  rcases hv with rfl | ⟨w, rfl⟩
  · rw [List.append_nil]
    exact hu
  · rw [← List.append_assoc]
    exact atLineStart_concat (u ++ w)

theorem AtLineStart.of_append {u v : List Char} (h : AtLineStart (u ++ v)) (hv : v ≠ []) :
    AtLineStart v := by
  rcases h with h | ⟨w, h⟩
  · exact absurd (List.append_eq_nil_iff.1 h).2 hv
  · obtain ⟨x, c, rfl⟩ : ∃ x c, v = x ++ [c] :=
      ⟨v.dropLast, v.getLast hv, (List.dropLast_concat_getLast hv).symm⟩
    rw [← List.append_assoc] at h
    obtain ⟨-, hc⟩ := List.append_inj' h rfl
    rw [hc]
    exact atLineStart_concat x

theorem AtLineStart.mem {s : List Char} (h : AtLineStart s) (hs : s ≠ []) : '\n' ∈ s := by
  rcases h with rfl | ⟨v, rfl⟩
  · exact absurd rfl hs
  · simp

end Text

namespace Line

open Text

theorem induct {P : List Char → Prop} (last : ∀ l, '\n' ∉ l → P l)
    (line : ∀ l s, '\n' ∉ l → P s → P (l ++ '\n' :: s)) (s : List Char) : P s := by
  induction h : s.length using Nat.strongRecOn generalizing s with
  | ind n ih =>
    by_cases hn : '\n' ∈ s
    · obtain ⟨l, t, rfl, hl⟩ := List.eq_append_cons_of_mem hn
      apply line l t hl
      apply ih t.length _ t rfl
      rw [← h, List.length_append, List.length_cons]
      omega
    · exact last s hn

theorem split_of_not_mem {l : List Char} (h : '\n' ∉ l) : split l = [l] := by
  induction l with
  | nil => rfl
  | cons c l ih =>
    simp only [List.mem_cons, not_or] at h
    rw [split, if_neg (Ne.symm h.1), ih h.2]

theorem split_line {l : List Char} (h : '\n' ∉ l) (s : List Char) :
    split (l ++ '\n' :: s) = (l ++ ['\n']) :: split s := by
  induction l with
  | nil => rw [List.nil_append, split, if_pos rfl, List.nil_append]
  | cons c l ih =>
    simp only [List.mem_cons, not_or] at h
    rw [List.cons_append, split, if_neg (Ne.symm h.1), ih h.2]
    rfl

theorem split_append {s : List Char} (h : AtLineStart s) (t : List Char) :
    ∃ ls, split (s ++ t) = ls ++ split t ∧ ls.flatten = s ∧
      ∀ l ∈ ls, AtLineStart l ∧ ∃ u v, s = u ++ l ++ v ∧ AtLineStart u := by
  induction s using Line.induct with
  | last l hl =>
    have hnil : l = [] := by
      apply Decidable.byContradiction
      intro hne
      exact hl (h.mem hne)
    subst hnil
    exact ⟨[], rfl, rfl, by simp⟩
  | line l s hl ih =>
    rw [List.append_cons] at h
    have hs : AtLineStart s := by
      by_cases hs : s = []
      · exact .inl hs
      · exact h.of_append hs
    obtain ⟨ls, hsplit, hflat, hlines⟩ := ih hs
    refine ⟨(l ++ ['\n']) :: ls, ?_, ?_, ?_⟩
    · rw [List.append_assoc, List.cons_append, split_line hl, hsplit]
      rfl
    · rw [List.flatten_cons, hflat, List.append_assoc]
      rfl
    · intro x hx
      rcases List.mem_cons.1 hx with rfl | hx
      · exact ⟨atLineStart_concat l, [], s, by simp, .inl rfl⟩
      · obtain ⟨hxl, u, v, rfl, hu⟩ := hlines x hx
        exact ⟨hxl, l ++ ['\n'] ++ u, v, by simp, (atLineStart_concat l).append hu⟩

theorem split_eq_append {s l : List Char} (us : List (List Char)) {vs : List (List Char)}
    (h : split s = us ++ l :: vs) :
    AtLineStart us.flatten ∧ (vs = [] ∧ '\n' ∉ l ∨ vs ≠ [] ∧ ∃ w, '\n' ∉ w ∧ l = w ++ ['\n']) := by
  induction s using Line.induct generalizing us with
  | last x hx =>
    rw [split_of_not_mem hx] at h
    cases us with
    | nil =>
      obtain ⟨rfl, rfl⟩ := List.cons.inj h
      exact ⟨.inl rfl, .inl ⟨rfl, hx⟩⟩
    | cons u us => simp at h
  | line x s hx ih =>
    rw [split_line hx] at h
    cases us with
    | nil =>
      obtain ⟨rfl, hs⟩ := List.cons.inj h
      exact ⟨.inl rfl, .inr ⟨hs ▸ split_ne_nil s, x, hx, rfl⟩⟩
    | cons u us =>
      rw [List.cons_append] at h
      obtain ⟨rfl, hs⟩ := List.cons.inj h
      obtain ⟨hu, hl⟩ := ih us hs
      exact ⟨(atLineStart_concat x).append hu, hl⟩

theorem chomp_cases (l : List Char) :
    l = chomp l ∨ l = chomp l ++ ['\n'] ∨ l = chomp l ++ ['\r', '\n'] := by
  fun_induction chomp l with
  | case1 => exact .inl rfl
  | case2 => exact .inr (.inl rfl)
  | case3 => exact .inr (.inr rfl)
  | case4 c cs _ _ ih => simpa using ih

theorem chomp_isPrefix (l : List Char) : chomp l <+: l := by
  rcases chomp_cases l with h | h | h
  · exact ⟨[], by rw [List.append_nil]; exact h.symm⟩
  · exact ⟨_, h.symm⟩
  · exact ⟨_, h.symm⟩

end Line

end LosslessYaml
