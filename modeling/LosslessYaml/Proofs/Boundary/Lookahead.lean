import LosslessYaml.Grammar.Block

namespace LosslessYaml.Grammar

def Closed (ts : List Placed) : Prop := ∃ us t, ts = us ++ [t] ∧ t.kind = .newline

theorem Closed.ne_nil {ts : List Placed} (h : Closed ts) : ts ≠ [] := by
  obtain ⟨us, t, rfl, -⟩ := h
  simp

theorem Closed.suffix {us vs : List Placed} (h : Closed (us ++ vs)) (hn : vs ≠ []) : Closed vs := by
  obtain ⟨ws, t, hw, hk⟩ := h
  obtain ⟨xs, x, rfl⟩ : ∃ xs x, vs = xs ++ [x] :=
    ⟨vs.dropLast, vs.getLast hn, (List.dropLast_concat_getLast hn).symm⟩
  rw [← List.append_assoc] at hw
  obtain ⟨-, hx⟩ := List.append_inj' hw rfl
  rw [← (List.cons.inj hx).1] at hk
  exact ⟨xs, x, rfl, hk⟩

theorem Closed.of_cons {t : Placed} {ts : List Placed} (h : Closed (t :: ts)) :
    ts = [] ∨ Closed ts := by
  by_cases hn : ts = []
  · exact .inl hn
  · have h' : Closed ([t] ++ ts) := h
    exact .inr (h'.suffix hn)

theorem Closed.tail {t : Placed} {ts : List Placed} (h : Closed (t :: ts))
    (ht : t.kind ≠ .newline) : Closed ts := by
  rcases h.of_cons with rfl | hc
  · obtain ⟨us, x, hx, hk⟩ := h
    cases us with
    | nil =>
      rw [← (List.cons.inj hx).1] at hk
      exact absurd hk ht
    | cons u us => simp at hx
  · exact hc

theorem Closed.dropWhile {ts : List Placed} (h : Closed ts) (p : Placed → Bool)
    (hn : ts.dropWhile p ≠ []) :
    Closed (ts.dropWhile p) := by
  rw [← List.takeWhile_append_dropWhile (p := p) (l := ts)] at h
  exact h.suffix hn

theorem Closed.pastBlank {ts : List Placed} (h : Closed ts) : Closed (pastBlank ts) := by
  cases ts with
  | nil => exact h
  | cons t ts =>
    rw [Grammar.pastBlank]
    split
    · next hk => exact h.tail (by simp [hk])
    · exact h

theorem isTrivia_next_pastTrivia {ts : List Placed} (h : pastTrivia ts ≠ []) :
    (next (pastTrivia ts)).isTrivia = false := by
  induction ts with
  | nil => exact absurd rfl h
  | cons t ts ih =>
    rw [pastTrivia, List.dropWhile_cons] at h ⊢
    split
    · next ht =>
      rw [if_pos ht] at h
      exact ih h
    · next ht => simpa using ht

section Append

variable {ts ms : List Placed} (h : Closed ts)
include h

theorem next_append : next (ts ++ ms) = next ts := by
  cases ts with
  | nil => exact absurd rfl h.ne_nil
  | cons t ts => rfl

theorem column_append : column (ts ++ ms) = column ts := by
  cases ts with
  | nil => exact absurd rfl h.ne_nil
  | cons t ts => rfl

theorem initial_append : initial? (ts ++ ms) = initial? ts := by
  cases ts with
  | nil => exact absurd rfl h.ne_nil
  | cons t ts => rfl

theorem startsLine_append : startsLine (ts ++ ms) = startsLine ts := by
  cases ts with
  | nil => exact absurd rfl h.ne_nil
  | cons t ts => rfl

theorem isEmpty_append : (ts ++ ms).isEmpty = ts.isEmpty := by
  cases ts with
  | nil => exact absurd rfl h.ne_nil
  | cons t ts => rfl

theorem tail_append : (ts ++ ms).tail = ts.tail ++ ms := by
  cases ts with
  | nil => exact absurd rfl h.ne_nil
  | cons t ts => rfl

theorem closed_tail (hk : next ts ≠ .newline) : Closed ts.tail := by
  cases ts with
  | nil => exact absurd rfl h.ne_nil
  | cons t ts => exact h.tail hk

theorem pastBlank_append : pastBlank (ts ++ ms) = pastBlank ts ++ ms := by
  cases ts with
  | nil => exact absurd rfl h.ne_nil
  | cons t ts =>
    rw [List.cons_append, pastBlank, pastBlank]
    split <;> rfl

theorem atLineEnd_append : atLineEnd (ts ++ ms) = atLineEnd ts := by
  rw [atLineEnd, pastBlank_append h, next_append h.pastBlank, atLineEnd]

theorem atGap_append : atGap (ts ++ ms) = atGap ts := by
  rw [atGap, next_append h, atGap]

theorem atIndicator_append {k : Kind} (hk : k ≠ .newline) :
    atIndicator k (ts ++ ms) = atIndicator k ts := by
  rw [atIndicator, atIndicator, next_append h, tail_append h]
  by_cases hn : next ts = k
  · rw [atGap_append (closed_tail h (hn ▸ hk))]
  · simp [hn]

theorem atDash_append : atDash (ts ++ ms) = atDash ts := atIndicator_append h (by decide)

theorem atQuestion_append : atQuestion (ts ++ ms) = atQuestion ts :=
  atIndicator_append h (by decide)

theorem atColon_append : atColon (ts ++ ms) = atColon ts := atIndicator_append h (by decide)

theorem atMarker_append : atMarker (ts ++ ms) = atMarker ts := by
  rw [atMarker, atMarker, column_append h, atIndicator_append h (by decide),
    atIndicator_append h (by decide)]

theorem atBlockLiteral_append : atBlockLiteral (ts ++ ms) = atBlockLiteral ts := by
  rw [atBlockLiteral, atBlockLiteral, next_append h]

theorem atProperty_append : atProperty (ts ++ ms) = atProperty ts := by
  rw [atProperty, atProperty, next_append h, initial_append h]

theorem atAlias_append : atAlias (ts ++ ms) = atAlias ts := by
  rw [atAlias, atAlias, next_append h, initial_append h]

theorem colonAhead_append (depth : Nat) : colonAhead depth (ts ++ ms) = colonAhead depth ts := by
  induction ts generalizing depth with
  | nil => exact absurd rfl h.ne_nil
  | cons t ts ih =>
    rw [List.cons_append, colonAhead, colonAhead]
    by_cases hk : t.kind = .newline
    · simp [hk]
    · have ht := h.tail hk
      simp only [ih ht, atGap_append ht]

theorem atEntry_append : atEntry (ts ++ ms) = atEntry ts := by
  rw [atEntry, atEntry, atQuestion_append h, atMarker_append h, atDash_append h,
    atBlockLiteral_append h,
    colonAhead_append h]

theorem atFlowColon_append (adjacent : Bool) :
    atFlowColon adjacent (ts ++ ms) = atFlowColon adjacent ts := by
  rw [atFlowColon, atFlowColon, next_append h, tail_append h]
  by_cases hn : next ts = .colon
  · rw [next_append (closed_tail h (by simp [hn]))]
  · simp [hn]

theorem endsFlowPlain_append : endsFlowPlain (ts ++ ms) = endsFlowPlain ts := by
  rw [endsFlowPlain, endsFlowPlain, next_append h, atFlowColon_append h]

theorem colonLength?_append (adjacent : Bool) :
    colonLength? adjacent (ts ++ ms) = colonLength? adjacent ts := by
  rw [colonLength?, colonLength?, next_append h, tail_append h, atFlowColon_append h]
  by_cases hn : next ts = .whitespace
  · rw [atFlowColon_append (closed_tail h (by simp [hn]))]
  · simp [hn]

theorem continuesName_append : continuesName (ts ++ ms) = continuesName ts := by
  rw [continuesName, continuesName, next_append h, atColon_append h]

theorem atInnerBlank_append : atInnerBlank (ts ++ ms) = atInnerBlank ts := by
  rw [atInnerBlank, atInnerBlank, next_append h, tail_append h, atLineEnd_append h]
  by_cases hn : next ts = .whitespace
  · rw [atColon_append (closed_tail h (by simp [hn]))]
  · simp [hn]

theorem atKeyEnd_append : atKeyEnd (ts ++ ms) = atKeyEnd ts := by
  rw [atKeyEnd, atKeyEnd, atLineEnd_append h, pastBlank_append h, atColon_append h.pastBlank]

end Append

/-- The tokens of a document that starts with a marker. -/
structure Marker (ms : List Placed) : Prop where
  opens : next ms = .directiveEnd
  marks : atMarker ms = true

section Marker

variable {ts ms : List Placed} (hm : Marker ms)
include hm

theorem Marker.cons : ∃ t us, ms = t :: us ∧ t.kind = .directiveEnd := by
  have ho := hm.opens
  cases ms with
  | nil => cases ho
  | cons t us => exact ⟨t, us, rfl, ho⟩

theorem dropWhile_append {p : Placed → Bool} (hp : ∀ t, t.kind = .directiveEnd → p t = false)
    (ts : List Placed) :
    (ts ++ ms).dropWhile p = ts.dropWhile p ++ ms := by
  obtain ⟨t, us, rfl, hk⟩ := hm.cons
  induction ts with
  | nil =>
    rw [List.nil_append, List.dropWhile_cons, if_neg (by simp [hp t hk])]
    rfl
  | cons x xs ih =>
    rw [List.cons_append, List.dropWhile_cons, List.dropWhile_cons, ih]
    split <;> rfl

theorem pastTrivia_append (ts : List Placed) : pastTrivia (ts ++ ms) = pastTrivia ts ++ ms :=
  dropWhile_append hm (fun t hk => by simp [hk, Kind.isTrivia]) ts

theorem pastTrivia_agrees {f : List Placed → Bool} (hf : ∀ us, Closed us → f (us ++ ms) = f us)
    (he : f ms = f [])
    (h : Closed ts) : f (pastTrivia (ts ++ ms)) = f (pastTrivia ts) := by
  rw [pastTrivia_append hm]
  by_cases hn : pastTrivia ts = []
  · rw [hn, List.nil_append, he]
  · exact hf _ (h.dropWhile _ hn)

theorem Marker.atDash : atDash ms = false := by simp [Grammar.atDash, atIndicator, hm.opens]

theorem Marker.atColon : atColon ms = false := by simp [Grammar.atColon, atIndicator, hm.opens]

theorem Marker.atEntry : atEntry ms = false := by
  simp [Grammar.atEntry, atQuestion, atIndicator, hm.opens, hm.marks]

theorem contentAhead_append (h : Closed ts) : contentAhead (ts ++ ms) = contentAhead ts := by
  refine pastTrivia_agrees hm (f := fun us => !us.isEmpty && !atMarker us) (fun us hu => ?_) ?_ h
  · rw [isEmpty_append hu, atMarker_append hu]
  · simp [hm.marks]

theorem contentAt_append (p : Nat → Bool) (h : Closed ts) :
    (contentAhead (ts ++ ms) && p (column (pastTrivia (ts ++ ms)))) =
      (contentAhead ts && p (column (pastTrivia ts))) := by
  refine pastTrivia_agrees hm (f := fun us => (!us.isEmpty && !atMarker us) && p (column us))
    (fun us hu => ?_) ?_ h
  · rw [isEmpty_append hu, atMarker_append hu, column_append hu]
  · simp [hm.marks]

theorem entryFollows_append {test : List Placed → Bool}
    (ht : ∀ us, Closed us → test (us ++ ms) = test us)
    (he : test ms = false) (col : Nat) (h : Closed ts) :
    entryFollows col test (ts ++ ms) = entryFollows col test ts := by
  refine pastTrivia_agrees hm (f := fun us => column us = col && startsLine us && test us)
    (fun us hu => ?_) ?_ h
  · rw [column_append hu, startsLine_append hu, ht us hu]
  · simp [he, startsLine]

theorem atFlushSequence_append (col : Nat) (h : Closed ts) :
    atFlushSequence col (ts ++ ms) = atFlushSequence col ts := by
  refine pastTrivia_agrees hm (f := fun us => column us = col && atDash us) (fun us hu => ?_) ?_ h
  · rw [column_append hu, atDash_append hu]
  · rw [hm.atDash]
    simp [Grammar.atDash, atIndicator]

theorem flowContinues_append (h : Closed ts) : flowContinues (ts ++ ms) = flowContinues ts := by
  refine pastTrivia_agrees hm
    (f := fun us => (!us.isEmpty && !atMarker us) && !(next us).isFlowCloser)
    (fun us hu => ?_) ?_ h
  · rw [isEmpty_append hu, atMarker_append hu, next_append hu]
  · simp [hm.marks]

theorem atFlowValueEnd_append (h : Closed ts) :
    atFlowValueEnd (pastTrivia (ts ++ ms)) = atFlowValueEnd (pastTrivia ts) := by
  refine pastTrivia_agrees hm (f := atFlowValueEnd) (fun us hu => ?_) ?_ h
  · rw [atFlowValueEnd, atFlowValueEnd, atMarker_append hu, next_append hu]
  · simp [atFlowValueEnd, hm.marks]

theorem plainContinues_append (min : Nat) (h : Closed ts) :
    plainContinues min (ts ++ ms) = plainContinues min ts := by
  simp only [plainContinues, pastBlank_append h, next_append h.pastBlank]
  rw [dropWhile_append hm (fun t hk => by simp [hk, isLineGap])]
  by_cases hn : ts.dropWhile (isLineGap ·.kind) = []
  · simp [hn, hm.marks]
  · have hd := h.dropWhile _ hn
    rw [next_append hd, column_append hd, atMarker_append hd, atEntry_append hd]

end Marker

section Literal

variable {ts ms : List Placed}

theorem contentLength?_line (min : Nat) (indent : Option Nat) {t : Placed} {us : List Placed}
    (h : afterLine ts = t :: us) :
    contentLength? min indent ts =
      match pastBlank (lineOf ts) with
      | [] => (contentLength? min indent us).map ((lineOf ts).length + 1 + ·)
      | first :: _ =>
        if first.column < indent.getD first.column || first.column < min ||
            atMarker (pastBlank ts) then none
        else
          match contentLength? min (some (indent.getD first.column)) us with
          | some n => some ((lineOf ts).length + 1 + n)
          | none => some (lineOf ts).length := by
  cases hp : pastBlank (lineOf ts) with
  | nil =>
    rw [contentLength?]
    simp only [hp]
    split
    · next ha => simp [ha] at h
    · next ha =>
      rw [ha] at h
      obtain ⟨-, rfl⟩ := List.cons.inj h
      rfl
  | cons first rest =>
    rw [contentLength?]
    simp only [hp]
    split
    · rfl
    · split
      · next ha => simp [ha] at h
      · next ha =>
        rw [ha] at h
        obtain ⟨-, rfl⟩ := List.cons.inj h
        rfl

theorem contentLength?_last (min : Nat) (indent : Option Nat) (ha : afterLine ts = []) :
    contentLength? min indent ts =
      match pastBlank (lineOf ts) with
      | [] => none
      | first :: _ =>
        if first.column < indent.getD first.column || first.column < min ||
            atMarker (pastBlank ts) then none
        else some (lineOf ts).length := by
  cases hp : pastBlank (lineOf ts) with
  | nil =>
    rw [contentLength?]
    simp only [hp]
    split
    · rfl
    · next hc => simp [ha] at hc
  | cons first rest =>
    rw [contentLength?]
    simp only [hp]
    split
    · rfl
    · split
      · rfl
      · next hc => simp [ha] at hc

theorem contentLength?_nil (min : Nat) (indent : Option Nat) :
    contentLength? min indent [] = none := by
  rw [contentLength?]
  rfl

theorem contentLength?_marker (hm : Marker ms) (min : Nat) (indent : Option Nat) :
    contentLength? min indent ms = none := by
  obtain ⟨t, us, rfl, hk⟩ := hm.cons
  have hb : pastBlank (t :: us) = t :: us := by simp [pastBlank, hk]
  have hl : pastBlank (lineOf (t :: us)) = t :: us.takeWhile (·.kind ≠ .newline) := by
    simp [lineOf, pastBlank, hk]
  rw [contentLength?]
  split
  · next hp => simp [hl] at hp
  · next hp => simp [hb, hm.marks]

theorem line_of_closed (h : Closed ts) : ∃ t us, afterLine ts = t :: us ∧ (us = [] ∨ Closed us) ∧
    (lineOf ts).length + 1 + us.length = ts.length := by
  have hs : lineOf ts ++ afterLine ts = ts := List.takeWhile_append_dropWhile
  cases ha : afterLine ts with
  | nil =>
    obtain ⟨us, t, rfl, hk⟩ := h
    have hall :=
      List.all_eq_true.1 (List.all_takeWhile (p := fun t : Placed => decide (t.kind ≠ .newline))
      (l := us ++ [t]))
    rw [ha, List.append_nil] at hs
    have ht := hall t (by rw [← lineOf, hs]; simp)
    simp [hk] at ht
  | cons t us =>
    rw [ha] at hs
    refine ⟨t, us, rfl, ?_, ?_⟩
    · by_cases hu : us = []
      · exact .inl hu
      · have h' : Closed (lineOf ts ++ [t] ++ us) := by
          rw [List.append_assoc, List.singleton_append, hs]
          exact h
        exact .inr (h'.suffix hu)
    · have hl := congrArg List.length hs
      rw [List.length_append, List.length_cons] at hl
      omega

theorem lineOf_append (h : Closed ts) : lineOf (ts ++ ms) = lineOf ts := by
  obtain ⟨t, us, -, -, hl⟩ := line_of_closed h
  rw [lineOf, List.takeWhile_append, if_neg]
  · rfl
  · rw [← lineOf]
    omega

theorem afterLine_append (h : Closed ts) : afterLine (ts ++ ms) = afterLine ts ++ ms := by
  obtain ⟨t, us, ha, -, -⟩ := line_of_closed h
  rw [afterLine, List.dropWhile_append, if_neg]
  · rfl
  · rw [← afterLine, ha]
    simp

theorem contentLength?_append (hm : Marker ms) (min : Nat) (indent : Option Nat)
    (h : ts = [] ∨ Closed ts) :
    contentLength? min indent (ts ++ ms) = contentLength? min indent ts := by
  induction hn : ts.length using Nat.strongRecOn generalizing ts indent with
  | ind n ih =>
    rcases h with rfl | h
    · rw [List.nil_append, contentLength?_marker hm, contentLength?_nil]
    · obtain ⟨t, us, ha, hu, hl⟩ := line_of_closed h
      have hrec (indent : Option Nat) := ih us.length (by omega) indent hu rfl
      have ha' : afterLine (ts ++ ms) = t :: (us ++ ms) := by
        rw [afterLine_append h, ha, List.cons_append]
      rw [contentLength?_line _ _ ha, contentLength?_line _ _ ha', lineOf_append h,
        pastBlank_append h,
        atMarker_append h.pastBlank]
      simp only [hrec]

theorem contentLength?_lt (min : Nat) (indent : Option Nat) {n : Nat} (h : ts = [] ∨ Closed ts)
    (hc : contentLength? min indent ts = some n) : n < ts.length := by
  induction hn : ts.length using Nat.strongRecOn generalizing ts indent n with
  | ind k ih =>
    rcases h with rfl | h
    · rw [contentLength?_nil] at hc
      cases hc
    · obtain ⟨t, us, ha, hu, hl⟩ := line_of_closed h
      rw [contentLength?_line _ _ ha] at hc
      split at hc
      · obtain ⟨m, hm, rfl⟩ := Option.map_eq_some_iff.1 hc
        have := ih us.length (by omega) indent hu hm rfl
        omega
      · split at hc
        · cases hc
        · split at hc
          · next hm =>
            cases hc
            have := ih us.length (by omega) _ hu hm rfl
            omega
          · cases hc
            omega

end Literal

end LosslessYaml.Grammar
