import LosslessYaml.Proofs.Layout.Plain
import LosslessYaml.Proofs.Lossless

namespace LosslessYaml

namespace Grammar

open Rule LosslessYaml.Tree
open Placed (Stands)

section Standing

variable {u : List Char} {ts : List Placed} {r : Rule} {m : Nat}

theorem stands_rest (hl : Lossless r) (h : Stands u ts) :
    Stands (u ++ forestText (r ts).trees) (r ts).rest := by
  obtain ⟨us, hus, hleaves⟩ := hl ts
  have h' : Stands u (us ++ (r ts).rest) := by
    rw [← hus]
    exact h
  rw [forestText, hleaves]
  exact h'.rest

theorem column_of_stands (h : Stands u ts) (hn : ts ≠ []) : Text.column u = column ts := by
  cases ts with
  | nil => exact absurd rfl hn
  | cons t ts => exact h.column

def Deep (m : Nat) (ts : List Placed) : Prop := ts ≠ [] → m ≤ column ts

theorem rest_nil (hl : Lossless r) (h : ts = []) : (r ts).rest = [] := by
  have hr := hl.length_rest ts
  rw [h] at hr ⊢
  exact List.eq_nil_of_length_eq_zero (Nat.le_zero.1 hr)

theorem column_rest (hl : Lossless r) (h : Stands u ts) (hn : '\n' ∉ forestText (r ts).trees)
    (hr : (r ts).rest ≠ []) :
    column (r ts).rest = column ts + (forestText (r ts).trees).length := by
  have hts : ts ≠ [] := fun hts => hr (rest_nil hl hts)
  rw [← column_of_stands (stands_rest hl h) hr, Text.column_append hn, column_of_stands h hts]

theorem Deep.rest (hd : Deep m ts) (hl : Lossless r) (h : Stands u ts)
    (hn : '\n' ∉ forestText (r ts).trees) :
    Deep m (r ts).rest := by
  intro hr
  have hts : ts ≠ [] := fun hts => hr (rest_nil hl hts)
  rw [column_rest hl h hn hr]
  exact Nat.le_trans (hd hts) (Nat.le_add_right _ _)

theorem not_mem_token {k : Kind} (hk : k ≠ .newline ∧ k ≠ .quoted ∧ k ≠ .text)
    (h : Token.Lexed (ts.map Placed.token))
    (hn : next ts = k) : '\n' ∉ forestText (token ts).trees := by
  cases ts with
  | nil => simp [token]
  | cons t ts =>
    subst hn
    have hm := h.1.oneLine hk.1 hk.2.1 hk.2.2
    simpa [token] using hm

theorem length_token_pos (h : Token.Lexed (ts.map Placed.token)) (hn : ts ≠ []) :
    0 < (forestText (token ts).trees).length := by
  cases ts with
  | nil => exact absurd rfl hn
  | cons t ts =>
    have ht := List.length_pos_iff.2 h.1.nonempty
    simpa [token] using ht

theorem not_mem_blank (h : Token.Lexed (ts.map Placed.token)) :
    '\n' ∉ forestText (blank ts).trees :=
  trees_when (F := fun cs => '\n' ∉ forestText cs) (by simp) fun hw =>
    not_mem_token (k := .whitespace) (by decide) h (of_decide_eq_true hw)

end Standing

section Properties

theorem continuesName_of_text {ts : List Placed} (h : next ts = .text) :
    continuesName ts = true := by
  rw [continuesName, h]

/-- A quote left open in a name takes the name to the end of a line. -/
theorem atLineEnd_of_stops {ts : List Placed} (h : Token.Stops (ts.map Placed.token)) :
    atLineEnd (upTo (fun ts => !continuesName ts) ts).rest = true := by
  match ts, h with
  | [], _ => rfl
  | [t], h =>
    have hc : continuesName [t] = true := continuesName_of_text h.1
    simp [upTo, hc, atLineEnd, pastBlank]
  | t :: u :: us, h =>
    have hc : continuesName (t :: u :: us) = true := continuesName_of_text h.1
    have hu : u.kind = .newline := h.2.2
    have hs : continuesName (u :: us) = false := by simp [continuesName, hu]
    simp [upTo, hc, hs, atLineEnd, pastBlank, hu]

theorem name_tail_line {ts : List Placed} (h : Token.Lexed (ts.map Placed.token)) :
    atLineEnd (upTo (fun ts => !continuesName ts) ts).rest = true ∨
      '\n' ∉ forestText (upTo (fun ts => !continuesName ts) ts).trees := by
  induction ts with
  | nil => exact .inl rfl
  | cons t ts ih =>
    rw [upTo]
    split
    · exact .inr (by simp)
    · next hc =>
      by_cases ht : '\n' ∈ t.text
      · have hk : t.kind = .text := by
          apply Decidable.byContradiction
          intro hk
          refine h.1.oneLine ?_ ?_ hk ht <;> intro hk' <;>
            simp [continuesName, next_cons, show t.kind = _ from hk'] at hc
        exact .inl (atLineEnd_of_stops (h.2.1 hk ht))
      · rcases ih h.2.2 with ih | ih
        · exact .inl ih
        · exact .inr (by simpa using ⟨ht, ih⟩)

theorem name_line {ts : List Placed} (h : Token.Lexed (ts.map Placed.token))
    (hk : next ts = .text) :
    atLineEnd (name ts).rest = true ∨ '\n' ∉ forestText (name ts).trees := by
  cases ts with
  | nil => exact .inl rfl
  | cons t ts =>
    by_cases ht : '\n' ∈ t.text
    · exact .inl (atLineEnd_of_stops (h.2.1 hk ht))
    · rcases name_tail_line h.2.2 with hr | hr
      · exact .inl hr
      · refine .inr ?_
        rw [name, Rule.andThen, forestText_append]
        simpa [token] using ⟨ht, hr⟩

theorem lexed_rest {r : Rule} (hl : Lossless r) {ts : List Placed}
    (h : Token.Lexed (ts.map Placed.token)) :
    Token.Lexed ((r ts).rest.map Placed.token) := by
  obtain ⟨us, hus, -⟩ := hl ts
  rw [hus, List.map_append] at h
  exact Token.lexed_of_append h

theorem atProperty_of_atLineEnd {ts : List Placed} (h : atLineEnd ts = true) :
    atProperty ts = false := by
  cases ts with
  | nil => rfl
  | cons t ts =>
    by_cases hk : t.kind = .text
    · simp [atLineEnd, pastBlank, hk] at h
    · simp [atProperty, hk]

theorem property_line {ts : List Placed} (h : Token.Lexed (ts.map Placed.token))
    (hp : atProperty ts = true) :
    atLineEnd (property.andThen (when atInnerBlank token) ts).rest = true ∨
      '\n' ∉ forestText (property.andThen (when atInnerBlank token) ts).trees := by
  have hk : next ts = .text := by
    simp only [atProperty, Bool.and_eq_true, decide_eq_true_eq] at hp
    exact hp.1
  have hrest : (property ts).rest = (name ts).rest := rfl
  have htext : forestText (property ts).trees = forestText (name ts).trees := by
    simp [property, Rule.within]
  rw [Rule.andThen, hrest, forestText_append, htext]
  rcases name_line h hk with he | hn
  · left
    rw [Rule.when, branch, if_neg (by simp [atInnerBlank, he])]
    exact he
  · right
    have hb : '\n' ∉ forestText (when atInnerBlank token (name ts).rest).trees := by
      refine trees_when (F := fun cs => '\n' ∉ forestText cs) (by simp) fun hw => ?_
      simp only [atInnerBlank, Bool.and_eq_true, decide_eq_true_eq] at hw
      exact not_mem_token (k := .whitespace) (by decide) (lexed_rest lossless_name h) hw.1.1
    simpa using ⟨hn, hb⟩

theorem properties_line {ts : List Placed} (h : Token.Lexed (ts.map Placed.token)) :
    atLineEnd (properties ts).rest = true ∨ '\n' ∉ forestText (properties ts).trees := by
  rw [properties]
  fun_induction Rule.loop atProperty (property.andThen (when atInnerBlank token)) ts with
  | case1 ts ht p _ q ih =>
    have hl : Lossless (property.andThen (when atInnerBlank token)) :=
      lossless_property.andThen (lossless_token.when _)
    rcases property_line h ht with he | hn
    · left
      have hq : q = ⟨[], p.rest⟩ := loop_of_not (atProperty_of_atLineEnd he) _
      rw [hq]
      exact he
    · rcases ih (lexed_rest hl h) with ih | ih
      · exact .inl ih
      · refine .inr ?_
        rw [forestText_append]
        simpa using ⟨hn, ih⟩
  | case2 ts ht p _ => exact property_line h ht
  | case3 ts _ => exact .inr (by simp)

end Properties

end Grammar

end LosslessYaml
