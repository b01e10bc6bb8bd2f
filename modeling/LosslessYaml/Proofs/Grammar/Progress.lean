import LosslessYaml.Proofs.Grammar.Lossless

namespace LosslessYaml

namespace Rule

def Takes (r : Rule) (ts : List Placed) : Prop := (r ts).rest.length < ts.length

def Advances (test : List Placed → Bool) (r : Rule) : Prop := ∀ ts, test ts = true → Takes r ts

theorem andThen_assoc (r s t : Rule) : (r.andThen s).andThen t = r.andThen (s.andThen t) := by
  funext ts
  simp [andThen]

theorem takes_token {ts : List Placed} (h : ts ≠ []) : Takes token ts := by
  cases ts with
  | nil => exact absurd rfl h
  | cons t ts => exact Nat.lt_succ_self ts.length

theorem takes_upTo {stop : List Placed → Bool} {ts : List Placed} (h : ts ≠ [])
    (hs : stop ts = false) :
    Takes (upTo stop) ts := by
  cases ts with
  | nil => exact absurd rfl h
  | cons t ts =>
    have hl := (lossless_upTo stop).length_rest ts
    simp only [Takes, upTo, hs, Bool.false_eq_true, if_false, List.length_cons]
    omega

theorem Takes.andThen {r : Rule} {ts : List Placed} (h : Takes r ts) {s : Rule} (hs : Lossless s) :
    Takes (r.andThen s) ts :=
  Nat.lt_of_le_of_lt (hs.length_rest _) h

theorem Lossless.takes {r : Rule} (hr : Lossless r) {s : Rule} {ts : List Placed}
    (h : Takes s (r ts).rest) : Takes (r.andThen s) ts :=
  Nat.lt_of_lt_of_le h (hr.length_rest ts)

theorem Takes.within {r : Rule} {ts : List Placed} (h : Takes r ts) (k : Kind) :
    Takes (r.within k) ts :=
  h

theorem takes_branch {test : List Placed → Bool} {r s : Rule} {ts : List Placed}
    (hr : test ts = true → Takes r ts) (hs : test ts = false → Takes s ts) :
    Takes (branch test r s) ts := by
  cases h : test ts with
  | true => simpa [Takes, branch, h] using hr h
  | false => simpa [Takes, branch, h] using hs h

theorem Takes.when {test : List Placed → Bool} {r : Rule} {ts : List Placed} (h : Takes r ts)
    (ht : test ts = true) : Takes (when test r) ts :=
  takes_branch (fun _ => h) (fun hf => by simp [ht] at hf)

theorem loop_of_not {test : List Placed → Bool} {ts : List Placed}
    (ht : test ts = false) (r : Rule) :
    loop test r ts = ⟨[], ts⟩ := by
  rw [loop, if_neg (by simp [ht])]

theorem loop_of_takes {test : List Placed → Bool} {r : Rule} {ts : List Placed}
    (ht : test ts = true)
    (h : Takes r ts) : loop test r ts = r.andThen (loop test r) ts := by
  rw [loop, if_pos ht]
  exact if_pos h

theorem takes_loop {test : List Placed → Bool} {r : Rule} {ts : List Placed} (h : Takes r ts)
    (ht : test ts = true) (hl : Lossless r) : Takes (loop test r) ts := by
  rw [Takes, loop_of_takes ht h]
  exact h.andThen (hl.loop test)

theorem Advances.loop_eq {test : List Placed → Bool} {r : Rule} (h : Advances test r) :
    loop test r = branch test (r.andThen (loop test r)) skip := by
  funext ts
  cases ht : test ts with
  | true => rw [loop_of_takes ht (h ts ht), branch, if_pos ht]
  | false => rw [loop_of_not ht, branch, if_neg (by simp [ht]), skip]

end Rule

namespace Grammar

open Rule

theorem ne_nil_of_next {ts : List Placed} {k : Kind} (h : next ts = k) (hk : k ≠ .eof) :
    ts ≠ [] := by
  rintro rfl
  exact hk h.symm

@[simp] theorem rest_trivia (ts : List Placed) : (trivia ts).rest = pastTrivia ts := by
  induction ts with
  | nil => rfl
  | cons t ts ih =>
    simp only [trivia, upTo, pastTrivia, List.dropWhile_cons, next_cons] at ih ⊢
    by_cases h : t.kind.isTrivia = true
    · simpa [h] using ih
    · simp [h]

theorem stop_rest_upTo (stop : List Placed → Bool) (ts : List Placed) :
    (upTo stop ts).rest = [] ∨ stop (upTo stop ts).rest = true := by
  induction ts with
  | nil => exact .inl rfl
  | cons t ts ih =>
    rw [upTo]
    split
    · next h => exact .inr h
    · exact ih

theorem rest_upTo_newline (ts : List Placed) :
    (upTo (fun ts => next ts = .newline) ts).rest = [] ∨
      next (upTo (fun ts => next ts = .newline) ts).rest = .newline :=
  (stop_rest_upTo (fun ts => next ts = .newline) ts).imp_right of_decide_eq_true

theorem takes_name {ts : List Placed} (h : ts ≠ []) : Takes name ts :=
  (takes_token h).andThen (lossless_upTo _)

theorem takes_flowNode {ts : List Placed} (h : ts ≠ []) : Takes flowNode ts := by
  have ht := takes_token h
  rw [Takes, flowNode, flowNodeOf]
  have hn : Lossless (below ts.length flowNode skip) :=
    lossless_below (fun us _ => lossless_flowNode us) lossless_skip
  split
  · exact (ht.andThen (lossless_flowBody hn .square)).within _
  · exact (ht.andThen (lossless_flowBody hn .curly)).within _
  · exact ht.within _
  · exact (ht.andThen (lossless_upTo _)).within _

theorem takes_blockLiteral (min : Nat) {ts : List Placed} (h : atBlockLiteral ts = true) :
    Takes (blockLiteral min) ts := by
  have hk : next ts = .pipe ∨ next ts = .gt := by simpa [atBlockLiteral] using h
  have hn : ts ≠ [] := by
    rcases hk with hk | hk <;> exact ne_nil_of_next hk (by decide)
  refine Takes.within (Takes.andThen (Takes.within (takes_upTo hn ?_) _)
    (lossless_blockLiteralContent min)) _
  rcases hk with hk | hk <;> simp [hk]

theorem takes_inlineValue (min : Nat) {ts : List Placed} (h : ts ≠ []) :
    Takes (inlineValue min) ts := by
  have ht := takes_token h
  rw [Takes, inlineValue]
  split
  · next hk => exact takes_blockLiteral min (by simp [atBlockLiteral, hk])
  · next hk => exact takes_blockLiteral min (by simp [atBlockLiteral, hk])
  · exact takes_flowNode h
  · exact takes_flowNode h
  · exact ht.within _
  · exact ht.within _
  · exact ht.within _
  · exact ht.within _
  · split
    · exact (takes_name h).within _
    · exact (ht.andThen (lossless_plainRest min false)).within _

theorem takes_property {ts : List Placed} (h : ts ≠ []) :
    Takes (property.andThen (when atInnerBlank token)) ts :=
  Takes.andThen (r := property) (takes_name h) (lossless_token.when _)

theorem advances_properties : Advances atProperty (property.andThen (when atInnerBlank token)) := by
  intro ts h
  apply takes_property
  simp only [atProperty, Bool.and_eq_true, decide_eq_true_eq] at h
  exact ne_nil_of_next h.1 (by decide)

theorem takes_properties {ts : List Placed} (h : atProperty ts = true) : Takes properties ts :=
  takes_loop (advances_properties ts h) h (lossless_property.andThen (lossless_token.when _))

theorem properties_of_not_atProperty {ts : List Placed} (h : atProperty ts = false) :
    properties ts = ⟨[], ts⟩ := by
  rw [properties, loop_of_not h]

theorem atLineEnd_of_colonAhead {n : Nat} {ts : List Placed} (h : colonAhead n ts = true) :
    atLineEnd ts = false := by
  cases ts with
  | nil => simp [colonAhead] at h
  | cons t ts =>
    by_cases hw : t.kind = .whitespace
    · simp only [colonAhead, hw] at h
      cases ts with
      | nil => simp [colonAhead] at h
      | cons u us =>
        rw [colonAhead] at h
        simp only [atLineEnd, pastBlank, hw, if_true, next_cons]
        split at h <;> simp_all
    · rw [colonAhead] at h
      simp only [atLineEnd, pastBlank, if_neg hw, next_cons]
      split at h <;> simp_all

/-- In front of a separating colon a key takes a token, or is empty and leaves a blank and the
colon. -/
theorem takes_key_or {ts : List Placed} (h : colonAhead 0 ts = true) (hc : next ts ≠ .colon) :
    Takes key ts ∨ ((key ts).rest = ts ∧ next ts = .whitespace ∧ next ts.tail = .colon) := by
  have hn : ts ≠ [] := by
    rintro rfl
    simp [colonAhead] at h
  have hlc : Lossless
      (keyContent.andThen (when (fun ts => !atKeyEnd ts) ((upTo atKeyEnd).within .error))) :=
    lossless_keyContent.andThen (((lossless_upTo _).within _).when _)
  cases hk : atKeyEnd ts with
  | false =>
    -- the properties take the token, or else what the key consists of does
    left
    apply Takes.within
    cases hp : atProperty ts with
    | true => exact (takes_properties hp).andThen hlc
    | false =>
      apply lossless_properties.takes
      rw [properties_of_not_atProperty hp]
      refine Takes.andThen ?_ (((lossless_upTo _).within _).when _)
      rw [Takes, keyContent]
      split
      · exact takes_token hn
      · exact takes_flowNode hn
      · exact takes_flowNode hn
      · exact Takes.when (Takes.within (takes_upTo hn hk) _) (by simp [hk])
  | true =>
    -- the line goes on, so the key ends with its colon, and this is not the next token
    right
    have hl := atLineEnd_of_colonAhead h
    have hcolon : atColon (pastBlank ts) = true := by simpa [atKeyEnd, hl] using hk
    cases ts with
    | nil => exact absurd rfl hn
    | cons t ts =>
      have hw : t.kind = .whitespace := by
        apply Decidable.byContradiction
        intro hw
        simp only [pastBlank, if_neg hw, atColon, atIndicator, Bool.and_eq_true,
          decide_eq_true_eq] at hcolon
        exact hc hcolon.1
      refine ⟨?_, hw, ?_⟩
      · have hp : atProperty (t :: ts) = false := by simp [atProperty, hw]
        simp [key, Rule.within, Rule.andThen, properties_of_not_atProperty hp, keyContent, hw,
          Rule.when, Rule.branch, hk, skip]
      · simp only [pastBlank, hw, if_true, atColon, atIndicator, Bool.and_eq_true,
          decide_eq_true_eq] at hcolon
        exact hcolon.1

theorem next_of_atIndicator {k : Kind} {ts : List Placed} (h : atIndicator k ts = true) :
    next ts = k := by
  simp only [atIndicator, Bool.and_eq_true, decide_eq_true_eq] at h
  exact h.1

theorem ne_nil_of_atDash {ts : List Placed} (h : atDash ts = true) : ts ≠ [] :=
  ne_nil_of_next (next_of_atIndicator h) (by decide)

theorem ne_nil_of_atQuestion {ts : List Placed} (h : atQuestion ts = true) : ts ≠ [] :=
  ne_nil_of_next (next_of_atIndicator h) (by decide)

theorem ne_nil_of_atEntry {ts : List Placed} (h : atEntry ts = true) : ts ≠ [] := by
  rintro rfl
  simp [atEntry, atQuestion, atIndicator, colonAhead] at h

theorem colonAhead_of_atEntry {ts : List Placed} (h : atEntry ts = true)
    (hq : atQuestion ts = false) :
    colonAhead 0 ts = true := by
  simp only [atEntry, hq, Bool.false_or, Bool.and_eq_true] at h
  exact h.2

theorem ne_nil_of_contentAhead {ts : List Placed} (h : contentAhead ts = true) :
    pastTrivia ts ≠ [] := by
  intro hn
  simp [contentAhead, hn] at h

theorem takes_colon {ts : List Placed}
    (h : next ts = .colon ∨ next ts = .whitespace ∧ next ts.tail = .colon) :
    Takes ((when (fun ts => next ts = .whitespace && next ts.tail = .colon) token).andThen
      (when (fun ts => next ts = .colon) token)) ts := by
  rcases h with h | ⟨hw, hc⟩
  · apply (lossless_token.when _).takes
    have hr :
        (when (fun ts => next ts = .whitespace && next ts.tail = .colon) token ts).rest = ts := by
      simp [Rule.when, branch, h, skip]
    rw [hr]
    exact (takes_token (ne_nil_of_next h (by decide))).when (by simp [h])
  · refine Takes.andThen ?_ (lossless_token.when _)
    exact (takes_token (ne_nil_of_next hw (by decide))).when (by simp [hw, hc])

section Block

variable {node : Nat → Rule} (hn : ∀ min, Lossless (node min))
include hn

theorem takes_item (col : Nat) {ts : List Placed} (h : ts ≠ []) : Takes (item node col) ts :=
  ((takes_token h).andThen (lossless_itemValue hn col)).within _

theorem takes_pairTail (col : Nat) {ts : List Placed}
    (h : next ts = .colon ∨ next ts = .whitespace ∧ next ts.tail = .colon) :
    Takes (pairTail node col) ts := by
  rw [pairTail, ← andThen_assoc]
  exact (takes_colon h).andThen (lossless_pairValue hn col)

theorem takes_pair (col : Nat) {ts : List Placed} (h : atEntry ts = true) :
    Takes (pair node col) ts := by
  have ht := lossless_pairTail hn col
  apply Takes.within
  apply takes_branch
  · intro hq
    refine Takes.andThen ?_ ((lossless_trivia.andThen ht).when _)
    exact ((takes_token (ne_nil_of_atQuestion hq)).andThen (lossless_itemValue hn col)).within _
  · intro hq
    have hc := colonAhead_of_atEntry h hq
    by_cases hk : next ts = .colon
    · apply (lossless_key.when _).takes
      have hr : (when (fun ts => next ts ≠ .colon) key ts).rest = ts := by
        simp [Rule.when, branch, hk, skip]
      rw [hr]
      exact takes_pairTail hn col (.inl hk)
    · have hr : when (fun ts => next ts ≠ .colon) key ts = key ts := by
        simp [Rule.when, branch, hk]
      rcases takes_key_or hc hk with hkey | ⟨hrest, hw, hcolon⟩
      · refine Takes.andThen ?_ ht
        rw [Takes, hr]
        exact hkey
      · apply (lossless_key.when _).takes
        rw [hr, hrest]
        exact takes_pairTail hn col (.inr ⟨hw, hcolon⟩)

theorem takes_bareNode (min : Nat) {ts : List Placed} (h : ts ≠ []) :
    Takes (bareNode node min) ts := by
  rw [Takes, bareNode]
  split
  · exact ((takes_item hn _ h).andThen
      ((lossless_trivia.andThen (lossless_item hn _)).loop _)).within _
  · split
    · exact takes_blockLiteral min ‹_›
    · split
      · exact ((takes_pair hn _ ‹_›).andThen
          ((lossless_trivia.andThen (lossless_pair hn _)).loop _)).within _
      · exact takes_inlineValue min h

theorem takes_blockNodeOf (min : Nat) {ts : List Placed} (h : ts ≠ []) :
    Takes (blockNodeOf node min) ts := by
  apply takes_branch
  · intro hp
    simp only [Bool.and_eq_true] at hp
    exact (takes_properties hp.1).andThen
      (((lossless_trivia.andThen (hn min)).when _).branch (lossless_bareNode hn min) _)
  · intro _
    exact takes_bareNode hn min h

end Block

theorem takes_blockNode (min : Nat) {ts : List Placed} (h : ts ≠ []) :
    Takes (blockNode min) ts := by
  rw [Takes, blockNode]
  exact takes_blockNodeOf
    (fun col => lossless_below (fun us _ => lossless_blockNode col us) lossless_skip) min h

theorem takes_trivia_then {r : Rule} {ts : List Placed} (h : Takes r (pastTrivia ts)) :
    Takes (trivia.andThen r) ts := by
  apply lossless_trivia.takes
  rw [rest_trivia]
  exact h

theorem advances_flowEntries (b : Bracket) : Advances flowContinues
    (trivia.andThen (branch (fun ts => next ts = .comma) token (flowEntry flowNode b))) := by
  intro ts h
  simp only [flowContinues, Bool.and_eq_true] at h
  have hn := ne_nil_of_contentAhead h.1
  apply takes_trivia_then
  apply takes_branch
  · intro _
    exact takes_token hn
  · intro _
    simp only [Takes, flowEntry]
    split
    · next hc =>
      have hl : colonLength? false (pastTrivia ts) = some 1 := by simp [colonLength?, hc]
      rw [hl]
      refine Takes.within
        (Takes.andThen (r := tokens 1) ?_ ((lossless_trivia.andThen lossless_flowNode).when _)) _
      cases hp : pastTrivia ts with
      | nil => exact absurd hp hn
      | cons t us => simp [Takes, tokens]
    · have ht := takes_flowNode hn
      split
      · exact ht
      · exact Nat.lt_of_le_of_lt ((lossless_flowPairTail lossless_flowNode _).length_rest _) ht

theorem advances_items (col : Nat) :
    Advances (entryFollows col atDash) (trivia.andThen (item blockNode col)) := by
  intro ts h
  simp only [entryFollows, Bool.and_eq_true] at h
  exact takes_trivia_then (takes_item lossless_blockNode col (ne_nil_of_atDash h.2))

theorem advances_pairs (col : Nat) :
    Advances (entryFollows col atEntry) (trivia.andThen (pair blockNode col)) := by
  intro ts h
  simp only [entryFollows, Bool.and_eq_true] at h
  exact takes_trivia_then (takes_pair lossless_blockNode col h.2)

theorem advances_nodes : Advances contentAhead (trivia.andThen (blockNode 0)) := by
  intro ts h
  exact takes_trivia_then (takes_blockNode 0 (ne_nil_of_contentAhead h))

theorem pastTrivia_of_not_isTrivia {ts : List Placed} (h : (next ts).isTrivia = false) :
    pastTrivia ts = ts := by
  cases ts with
  | nil => rfl
  | cons t ts =>
    rw [next_cons] at h
    simp [pastTrivia, h]

theorem takes_document {ts : List Placed} (h : ts ≠ []) (ht : (next ts).isTrivia = false) :
    Takes document ts := by
  -- what is neither trivia, a marker nor content does not exist, so a document takes a token unless it stands in
  -- front of trivia
  have hp := pastTrivia_of_not_isTrivia ht
  have hl : Lossless ((loop contentAhead (trivia.andThen (blockNode 0))).andThen
      (when (fun ts => atMarker (pastTrivia ts) && next (pastTrivia ts) = .documentEnd)
        (trivia.andThen token))) :=
    ((lossless_trivia.andThen (lossless_blockNode 0)).loop _).andThen
      ((lossless_trivia.andThen lossless_token).when _)
  apply Takes.within
  by_cases hd : (atMarker ts && decide (next ts = .directiveEnd)) = true
  · exact ((takes_token h).when hd).andThen hl
  · apply (lossless_token.when _).takes
    have hr : (when (fun ts => atMarker ts && next ts = .directiveEnd) token ts).rest = ts := by
      simp [Rule.when, branch, hd, skip]
    rw [hr]
    cases hm : atMarker ts with
    | false =>
      have hc : contentAhead ts = true := by simp [contentAhead, hp, hm, h]
      exact (takes_loop (advances_nodes ts hc) hc
        (lossless_trivia.andThen (lossless_blockNode 0))).andThen
        ((lossless_trivia.andThen lossless_token).when _)
    | true =>
      have hc : contentAhead ts = false := by simp [contentAhead, hp, hm]
      have he : next ts = .documentEnd := by
        simp only [atMarker, Bool.and_eq_true, Bool.or_eq_true] at hm
        rcases hm.1 with hk | hk
        · simp [atMarker, hm, next_of_atIndicator hk] at hd
        · exact next_of_atIndicator hk
      apply ((lossless_trivia.andThen (lossless_blockNode 0)).loop _).takes
      rw [loop_of_not hc]
      refine Takes.when (takes_trivia_then ?_) (by simp [hp, hm, he])
      rw [hp]
      exact takes_token h

theorem advances_documents : Advances (fun ts => !ts.isEmpty) (document.andThen trivia) := by
  intro ts h
  have hn : ts ≠ [] := by simpa using h
  cases ht : (next ts).isTrivia with
  | false => exact (takes_document hn ht).andThen lossless_trivia
  | true =>
    -- in front of trivia the document may take nothing, and then the trivia comes first
    by_cases hd : Takes document ts
    · exact hd.andThen lossless_trivia
    · obtain ⟨us, hus, -⟩ := lossless_document ts
      have hl := congrArg List.length hus
      rw [List.length_append] at hl
      have hu : us = [] := List.eq_nil_of_length_eq_zero (by rw [Takes] at hd; omega)
      apply lossless_document.takes
      rw [hu, List.nil_append] at hus
      rw [← hus]
      exact takes_upTo hn (by simp [ht])

end Grammar

end LosslessYaml
