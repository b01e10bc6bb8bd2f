import LosslessYaml.Proofs.Boundary.Flow

namespace LosslessYaml.Grammar

open Rule

section Scalar

variable {ms ts : List Placed}

theorem atLineEnd_of_newline {us : List Placed} (h : next us = .newline) : atLineEnd us = true := by
  rw [atLineEnd, pastBlank_of_newline h, h]

theorem reads_blank (h : Closed ts) : Reads ms blank blank ts := by
  refine reads_when h (by rw [next_append h]) fun hw => reads_token h ?_
  rw [of_decide_eq_true hw]
  decide

theorem reads_name (h : Closed ts) (hk : next ts ≠ .newline) : Reads ms name name ts := by
  refine (reads_token h hk).andThen fun hc => reads_upTo (fun us hu => ?_) (fun us hu => ?_) hc
  · rw [continuesName_append hu]
  · simp [continuesName, hu]

theorem reads_properties (h : Closed ts) : Reads ms properties properties ts := by
  refine reads_loop (fun us hu => atProperty_append hu) (fun us hu hp => ?_) h
  have hk : next us ≠ .newline := by
    simp only [atProperty, Bool.and_eq_true, decide_eq_true_eq] at hp
    simp [hp.1]
  have hprop : Reads ms property property us :=
    ((reads_name hu hk).within _).congr rfl (by rw [property, initial_append hu])
  refine hprop.andThen fun hc => reads_when hc (atInnerBlank_append hc) fun hb => reads_token hc ?_
  simp only [atInnerBlank, Bool.and_eq_true, decide_eq_true_eq] at hb
  simp [hb.1.1]

theorem reads_line (h : Closed ts) : Reads ms line line ts :=
  reads_upTo (fun _ hu => atLineEnd_append hu) (fun _ hu => atLineEnd_of_newline hu) h

theorem reads_restOfLine (h : Closed ts) : Reads ms restOfLine restOfLine ts :=
  reads_when h (by rw [atLineEnd_append h]) fun _ =>
    (reads_blank h).andThen fun hc => (reads_line hc).within _

theorem isLineGap_of_plainContinues {min : Nat} {t : Placed}
    (h : plainContinues min (t :: ts) = true) : isLineGap t.kind = true := by
  simp only [plainContinues, Bool.and_eq_true, decide_eq_true_eq] at h
  obtain ⟨⟨⟨⟨⟨hb, -⟩, -⟩, -⟩, -⟩, -⟩ := h
  by_cases hw : t.kind = .whitespace
  · simp [hw, isLineGap]
  · simp only [pastBlank, if_neg hw, next_cons] at hb
    simp [hb, isLineGap]

theorem gap_of_plainContinues {min : Nat} {t : Placed} (h : plainContinues min (t :: ts) = true) :
    ts.dropWhile (isLineGap ·.kind) ≠ [] := by
  have hg := isLineGap_of_plainContinues h
  simp only [plainContinues, Bool.and_eq_true, decide_eq_true_eq] at h
  obtain ⟨⟨⟨⟨⟨-, heof⟩, -⟩, -⟩, -⟩, -⟩ := h
  intro hn
  simp [hg, hn] at heof

section PlainRest

variable {min : Nat} {gap : Bool} {t : Placed}

theorem plainRest_gap (hg : (gap && isLineGap t.kind) = true) (ts : List Placed) :
    plainRest min gap (t :: ts) = ⟨.leaf t.token :: (plainRest min true ts).trees,
      (plainRest min true ts).rest⟩ := by
  rw [plainRest, if_pos hg]

theorem plainRest_line (hg : (gap && isLineGap t.kind) = false) (hl : atLineEnd (t :: ts) = false) :
    plainRest min gap (t :: ts) = ⟨.leaf t.token :: (plainRest min false ts).trees,
      (plainRest min false ts).rest⟩ := by
  rw [plainRest, if_neg (by simp [hg]), if_pos (by simp [hl])]

theorem plainRest_below (hg : (gap && isLineGap t.kind) = false) (hl : atLineEnd (t :: ts) = true)
    (hp : plainContinues min (t :: ts) = true) :
    plainRest min gap (t :: ts) = ⟨.leaf t.token :: (plainRest min true ts).trees,
      (plainRest min true ts).rest⟩ := by
  rw [plainRest, if_neg (by simp [hg]), if_neg (by simp [hl]), if_pos hp]

theorem plainRest_end (hg : (gap && isLineGap t.kind) = false) (hl : atLineEnd (t :: ts) = true)
    (hp : plainContinues min (t :: ts) = false) : plainRest min gap (t :: ts) = skip (t :: ts) := by
  rw [plainRest, if_neg (by simp [hg]), if_neg (by simp [hl]), if_neg (by simp [hp]), skip]

end PlainRest

theorem Closed.of_dropWhile {t : Placed} (h : Closed (t :: ts)) {p : Placed → Bool}
    (hd : ts.dropWhile p ≠ []) : Closed ts := by
  rcases h.of_cons with rfl | hc
  · exact absurd rfl hd
  · exact hc

theorem reads_plainRest (hm : Marker ms) (min : Nat) (gap : Bool) (h : Closed ts)
    (hg : gap = true → ts.dropWhile (isLineGap ·.kind) ≠ []) :
    Reads ms (plainRest min gap) (plainRest min gap) ts := by
  -- a gap is only entered where another line follows it, so it never takes the last line break
  induction ts generalizing gap with
  | nil => exact absurd rfl h.ne_nil
  | cons t ts ih =>
    have hl := @atLineEnd_append _ ms h
    have hp := plainContinues_append hm min h
    rw [List.cons_append] at hl hp
    cases hgap : (gap && isLineGap t.kind) with
    | true =>
      have hd : ts.dropWhile (isLineGap ·.kind) ≠ [] := by
        have hgap' := hgap
        simp only [Bool.and_eq_true] at hgap'
        have hd := hg hgap'.1
        rwa [List.dropWhile_cons, if_pos hgap'.2] at hd
      exact (ih true (h.of_dropWhile hd) fun _ => hd).cons (plainRest_gap hgap ts)
        (plainRest_gap hgap (ts ++ ms))
    | false =>
      cases hend : atLineEnd (t :: ts) with
      | false =>
        have hk : t.kind ≠ .newline := by
          intro hk
          have hn : atLineEnd (t :: ts) = true := atLineEnd_of_newline hk
          rw [hn] at hend
          cases hend
        exact (ih false (h.tail hk) fun hf => by cases hf).cons (plainRest_line hgap hend)
          (plainRest_line hgap (hl.trans hend))
      | true =>
        cases hcont : plainContinues min (t :: ts) with
        | true =>
          have hd := gap_of_plainContinues hcont
          exact (ih true (h.of_dropWhile hd) fun _ => hd).cons (plainRest_below hgap hend hcont)
            (plainRest_below hgap (hl.trans hend) (hp.trans hcont))
        | false =>
          exact (reads_skip h).congr (plainRest_end hgap hend hcont)
            (plainRest_end hgap (hl.trans hend) (hp.trans hcont))

theorem reads_plainScalar (hm : Marker ms) (min : Nat) (h : Closed ts) (hk : next ts ≠ .newline) :
    Reads ms (plainScalar min) (plainScalar min) ts :=
  ((reads_token h hk).andThen fun hc =>
    reads_plainRest hm min false hc fun hg => by cases hg).within _

theorem reads_blockLiteralContent (hm : Marker ms) (min : Nat) (h : Closed ts) :
    Reads ms (blockLiteralContent min) (blockLiteralContent min) ts := by
  cases ts with
  | nil => exact absurd rfl h.ne_nil
  | cons t us =>
    have ht := h.of_cons
    have hl : contentLength? min none (us ++ ms) = contentLength? min none us :=
      contentLength?_append hm min none ht
    cases hc : contentLength? min none us with
    | none =>
      refine ((reads_skip h).within .blockLiteralContent).congr ?_ ?_
      · simp only [blockLiteralContent, List.tail_cons, hc]
      · simp only [blockLiteralContent, List.cons_append, List.tail_cons, hl, hc]
    | some n =>
      have hn := contentLength?_lt min none ht hc
      have hu : Closed us := by
        rcases ht with rfl | ht
        · cases hn
        · exact ht
      have htoken : Reads ms token token (t :: us) := ⟨rfl, hu⟩
      refine Reads.congr (htoken.andThen fun hc =>
        (reads_tokens hc hn).within .blockLiteralContent) ?_ ?_
      · simp only [blockLiteralContent, List.tail_cons, hc]
      · simp only [blockLiteralContent, List.cons_append, List.tail_cons, hl, hc]

theorem reads_blockLiteral (hm : Marker ms) (min : Nat) (h : Closed ts) :
    Reads ms (blockLiteral min) (blockLiteral min) ts := by
  have hh : Reads ms (upTo fun ts => next ts = .newline) (upTo fun ts => next ts = .newline) ts :=
    reads_upTo (fun us hu => by rw [next_append hu]) (fun us hu => decide_eq_true hu) h
  exact ((hh.within _).andThen fun hc => reads_blockLiteralContent hm min hc).within _

theorem reads_inlineValue (hm : Marker ms) (min : Nat) (h : Closed ts) (hk : next ts ≠ .newline) :
    Reads ms (inlineValue min) (inlineValue min) ts := by
  have hl := reads_blockLiteral hm min h
  have hf := reads_flowNode hm h hk
  have he : Reads ms (token.within .error) (token.within .error) ts := (reads_token h hk).within _
  rw [Reads, inlineValue, inlineValue, next_append h]
  split
  · exact hl
  · exact hl
  · exact hf
  · exact hf
  · exact reads_quotedLiteral h hk
  · exact he
  · exact he
  · exact he
  · exact reads_branch (atAlias_append h) (fun _ => (reads_name h hk).within _)
      fun _ => reads_plainScalar hm min h hk

theorem reads_upToKeyEnd (k : Kind) (h : Closed ts) :
    Reads ms (when (fun ts => !atKeyEnd ts) ((upTo atKeyEnd).within k))
      (when (fun ts => !atKeyEnd ts) ((upTo atKeyEnd).within k)) ts := by
  refine reads_when h (by rw [atKeyEnd_append h]) fun _ => ?_
  refine (reads_upTo (fun us hu => atKeyEnd_append hu) (fun us hu => ?_) h).within _
  rw [atKeyEnd, atLineEnd_of_newline hu, Bool.true_or]

theorem reads_keyContent (hm : Marker ms) (h : Closed ts) : Reads ms keyContent keyContent ts := by
  rw [Reads, keyContent, keyContent, next_append h]
  split
  · next hn => exact reads_quotedLiteral h (by simp [hn])
  · next hn => exact reads_flowNode hm h (by simp [hn])
  · next hn => exact reads_flowNode hm h (by simp [hn])
  · exact reads_upToKeyEnd .literal h

theorem reads_key (hm : Marker ms) (h : Closed ts) : Reads ms key key ts :=
  ((reads_properties h).andThen fun hp =>
    (reads_keyContent hm hp).andThen fun hc => reads_upToKeyEnd .error hc).within _

end Scalar

section Block

variable {ms ts : List Placed} (hm : Marker ms) {node node' : Nat → Rule}
  (hn : ∀ min us, Closed us → next us ≠ .newline → Reads ms (node min) (node' min) us)
include hm hn

theorem reads_deeper (col : Nat) (h : Closed ts) :
    Reads ms (deeper node col) (deeper node' col) ts := by
  refine reads_when h (contentAt_append hm (fun c => col < c) h) fun ht => ?_
  simp only [Bool.and_eq_true] at ht
  exact reads_pastTrivia hm h (ne_nil_of_contentAhead ht.1) (hn _ _)

omit hm hn in
theorem rest_blank (ts : List Placed) : (blank ts).rest = pastBlank ts := by
  cases ts with
  | nil => rfl
  | cons t ts =>
    by_cases hw : t.kind = .whitespace
    · simp [blank, Rule.when, branch, hw, token, pastBlank]
    · simp [blank, Rule.when, branch, hw, skip, pastBlank]

omit hm hn in
theorem next_rest_blank (h : atLineEnd ts = false) : next (blank ts).rest ≠ .newline := by
  intro hk
  rw [rest_blank] at hk
  rw [atLineEnd, hk] at h
  cases h

theorem reads_itemValue (col : Nat) (h : Closed ts) :
    Reads ms (itemValue node col) (itemValue node' col) ts := by
  refine reads_branch (atLineEnd_append h) (fun _ => reads_deeper hm hn col h) fun he => ?_
  exact (reads_blank h).andThen fun hb =>
    (hn _ _ hb (next_rest_blank he)).andThen fun hc => reads_restOfLine hc

theorem reads_item (col : Nat) (h : Closed ts) (ht : atDash ts = true) :
    Reads ms (item node col) (item node' col) ts := by
  have hk : next ts ≠ .newline := by simp [next_of_atIndicator ht]
  exact ((reads_token h hk).andThen fun hc => reads_itemValue hm hn col hc).within _

theorem reads_sequence (col : Nat) (h : Closed ts) (ht : atDash ts = true) :
    Reads ms (sequence node col) (sequence node' col) ts := by
  refine ((reads_item hm hn col h ht).andThen fun hc => ?_).within _
  refine reads_loop (fun us => entryFollows_append hm (fun _ => atDash_append) hm.atDash col)
    (fun us hu hf => ?_) hc
  simp only [entryFollows, Bool.and_eq_true] at hf
  exact reads_pastTrivia hm hu (ne_nil_of_atDash hf.2) fun hp _ => reads_item hm hn col hp hf.2

theorem reads_pairValueBelow (col : Nat) (h : Closed ts) :
    Reads ms (pairValueBelow node col) (pairValueBelow node' col) ts := by
  refine reads_branch (atFlushSequence_append hm col h) (fun hf => ?_)
    fun _ => reads_deeper hm hn col h
  simp only [atFlushSequence, Bool.and_eq_true] at hf
  exact reads_pastTrivia hm h (ne_nil_of_atDash hf.2) fun hp _ => reads_sequence hm hn col hp hf.2

theorem reads_pairValue (col : Nat) (h : Closed ts) :
    Reads ms (pairValue node col) (pairValue node' col) ts := by
  refine reads_branch (atLineEnd_append h) (fun _ => reads_pairValueBelow hm hn col h) fun _ => ?_
  refine (reads_blank h).andThen fun hb => (reads_properties hb).andThen fun hp => ?_
  refine reads_branch (atLineEnd_append hp) (fun _ => reads_pairValueBelow hm hn col hp)
    fun he => ?_
  have hk : next (properties (blank ts).rest).rest ≠ .newline := by
    intro hk
    rw [atLineEnd_of_newline hk] at he
    cases he
  exact (reads_inlineValue hm _ hp hk).andThen fun hc => reads_restOfLine hc

theorem reads_pairTail (col : Nat) (h : Closed ts) :
    Reads ms (pairTail node col) (pairTail node' col) ts := by
  refine Reads.andThen (reads_when h ?_ fun hw => reads_token h ?_) fun hc => ?_
  · rw [next_append h, tail_append h]
    by_cases hw : next ts = .whitespace
    · rw [next_append (closed_tail h (by simp [hw]))]
    · simp [hw]
  · simp only [Bool.and_eq_true, decide_eq_true_eq] at hw
    simp [hw.1]
  · refine Reads.andThen
      (reads_when hc (by rw [next_append hc]) fun hk => reads_token hc ?_) fun hv =>
      reads_pairValue hm hn col hv
    simp [of_decide_eq_true hk]

theorem reads_pair (col : Nat) (h : Closed ts) : Reads ms (pair node col) (pair node' col) ts := by
  refine (reads_branch (atQuestion_append h) (fun hq => ?_) fun _ => ?_).within _
  · have hk : next ts ≠ .newline := by simp [next_of_atIndicator hq]
    have hkey : Reads ms (explicitKey node col) (explicitKey node' col) ts :=
      ((reads_token h hk).andThen fun hc => reads_itemValue hm hn col hc).within _
    refine hkey.andThen fun hc => reads_when hc ?_ fun hf => ?_
    · exact entryFollows_append hm (fun _ => atColon_append) hm.atColon col hc
    · simp only [entryFollows, Bool.and_eq_true] at hf
      refine reads_pastTrivia hm hc (ne_nil_of_next (next_of_atIndicator hf.2) (by decide))
        fun hp _ => ?_
      exact reads_pairTail hm hn col hp
  · refine Reads.andThen (reads_when h (by rw [next_append h]) fun _ => reads_key hm h) fun hc => ?_
    exact reads_pairTail hm hn col hc

theorem reads_mapping (col : Nat) (h : Closed ts) :
    Reads ms (mapping node col) (mapping node' col) ts := by
  refine ((reads_pair hm hn col h).andThen fun hc => ?_).within _
  refine reads_loop (fun us => entryFollows_append hm (fun _ => atEntry_append) hm.atEntry col)
    (fun us hu hf => ?_) hc
  simp only [entryFollows, Bool.and_eq_true] at hf
  exact reads_pastTrivia hm hu (ne_nil_of_atEntry hf.2) fun hp _ => reads_pair hm hn col hp

theorem reads_bareNode (min : Nat) (h : Closed ts) (hk : next ts ≠ .newline) :
    Reads ms (bareNode node min) (bareNode node' min) ts := by
  rw [Reads, bareNode, bareNode, atDash_append h, atBlockLiteral_append h, atEntry_append h,
    column_append h]
  split
  · next ht => exact reads_sequence hm hn _ h ht
  · split
    · exact reads_blockLiteral hm min h
    · split
      · exact reads_mapping hm hn _ h
      · exact reads_inlineValue hm min h hk

theorem reads_blockNodeOf (min : Nat) (h : Closed ts) (hk : next ts ≠ .newline) :
    Reads ms (blockNodeOf node min) (blockNodeOf node' min) ts := by
  refine reads_branch (by rw [atProperty_append h, atEntry_append h]) (fun _ => ?_)
    fun _ => reads_bareNode hm hn min h hk
  refine (reads_properties h).andThen fun hp =>
    reads_branch (atLineEnd_append hp) (fun _ => ?_) fun he => ?_
  · refine reads_when hp (contentAt_append hm (fun c => min ≤ c) hp) fun ht => ?_
    simp only [Bool.and_eq_true] at ht
    exact reads_pastTrivia hm hp (ne_nil_of_contentAhead ht.1) (hn _ _)
  · refine reads_bareNode hm hn min hp fun hnl => ?_
    rw [atLineEnd_of_newline hnl] at he
    cases he

end Block

theorem reads_blockNode {ms : List Placed} (hm : Marker ms) (min : Nat) {ts : List Placed}
    (h : Closed ts)
    (hk : next ts ≠ .newline) : Reads ms (blockNode min) (blockNode min) ts := by
  induction hn : ts.length using Nat.strongRecOn generalizing min ts with
  | ind n ih =>
    refine Reads.congr
      (reads_blockNodeOf hm (fun col us hu hku => reads_below hu fun hlt => ?_) min h hk)
      (blockNode_eq (fun _ => skip) min ts) (blockNode_eq (fun _ => skip) min (ts ++ ms))
    exact ih us.length (by omega) col hu hku rfl

end LosslessYaml.Grammar
