import LosslessYaml.Proofs.Boundary.Lookahead
import LosslessYaml.Proofs.Grammar.Recursion

namespace LosslessYaml.Grammar

open Rule

/-- The answer `p'` is `p` with the tokens `ms` left behind it, and `p` leaves closed tokens. -/
structure Meets (ms : List Placed) (p p' : Parsed) : Prop where
  eq : p' = ⟨p.trees, p.rest ++ ms⟩
  closed : Closed p.rest

/-- The rule `r'` does to `ts` in front of `ms` what `r` does to `ts` alone. -/
def Reads (ms : List Placed) (r r' : Rule) (ts : List Placed) : Prop :=
  Meets ms (r ts) (r' (ts ++ ms))

section Rules

variable {ms ts : List Placed} {r r' s s' : Rule}

theorem Reads.congr (h : Reads ms r r' ts) (hs : s ts = r ts)
    (hs' : s' (ts ++ ms) = r' (ts ++ ms)) : Reads ms s s' ts := by
  rw [Reads, hs, hs']
  exact h

theorem reads_skip (h : Closed ts) : Reads ms skip skip ts := ⟨rfl, h⟩

theorem reads_token (h : Closed ts) (hk : next ts ≠ .newline) : Reads ms token token ts := by
  cases ts with
  | nil => exact absurd rfl h.ne_nil
  | cons t ts => exact ⟨rfl, h.tail hk⟩

theorem reads_tokens {n : Nat} (h : Closed ts) (hn : n < ts.length) :
    Reads ms (tokens n) (tokens n) ts := by
  constructor
  · rw [tokens, tokens, List.take_append_of_le_length (Nat.le_of_lt hn),
      List.drop_append_of_le_length (Nat.le_of_lt hn)]
  · rw [← List.take_append_drop n ts] at h
    refine h.suffix ?_
    intro hd
    rw [List.drop_eq_nil_iff] at hd
    omega

theorem Reads.andThen (hr : Reads ms r r' ts)
    (hs : Closed (r ts).rest → Reads ms s s' (r ts).rest) :
    Reads ms (r.andThen s) (r'.andThen s') ts := by
  have hs := hs hr.closed
  constructor
  · simp only [Rule.andThen, hr.eq, hs.eq]
  · exact hs.closed

theorem Reads.within (hr : Reads ms r r' ts) (k : Kind) :
    Reads ms (r.within k) (r'.within k) ts := by
  constructor
  · simp only [Rule.within, hr.eq]
  · exact hr.closed

theorem reads_branch {test : List Placed → Bool} (ht : test (ts ++ ms) = test ts)
    (hr : test ts = true → Reads ms r r' ts) (hs : test ts = false → Reads ms s s' ts) :
    Reads ms (branch test r s) (branch test r' s') ts := by
  cases h : test ts with
  | true => exact (hr h).congr (by rw [branch, if_pos h]) (by rw [branch, if_pos (ht.trans h)])
  | false => exact (hs h).congr (by simp [branch, h]) (by simp [branch, ht, h])

theorem reads_when {test : List Placed → Bool} (h : Closed ts) (ht : test (ts ++ ms) = test ts)
    (hr : test ts = true → Reads ms r r' ts) : Reads ms (when test r) (when test r') ts :=
  reads_branch ht hr fun _ => reads_skip h

theorem Reads.cons {t : Placed} (hs : Reads ms s s' ts)
    (hr : r (t :: ts) = ⟨.leaf t.token :: (s ts).trees, (s ts).rest⟩)
    (hr' : r' (t :: (ts ++ ms)) = ⟨.leaf t.token :: (s' (ts ++ ms)).trees, (s' (ts ++ ms)).rest⟩) :
    Reads ms r r' (t :: ts) := by
  constructor
  · rw [List.cons_append, hr', hr, hs.eq]
  · rw [hr]
    exact hs.closed

theorem reads_loop {test : List Placed → Bool} (ht : ∀ us, Closed us → test (us ++ ms) = test us)
    (hr : ∀ us, Closed us → test us = true → Reads ms r r' us) (h : Closed ts) :
    Reads ms (loop test r) (loop test r') ts := by
  induction hn : ts.length using Nat.strongRecOn generalizing ts with
  | ind n ih =>
    cases hts : test ts with
    | false => exact (reads_skip h).congr (loop_of_not hts r) (loop_of_not ((ht ts h).trans hts) r')
    | true =>
      have hts' := (ht ts h).trans hts
      have hp := hr ts h hts
      -- the test for progress comes out the same
      have hlen : (r' (ts ++ ms)).rest.length < (ts ++ ms).length ↔
          (r ts).rest.length < ts.length := by
        rw [hp.eq, List.length_append, List.length_append]
        omega
      by_cases hrest : (r ts).rest.length < ts.length
      · refine Reads.congr (hp.andThen fun hc => ih _ ?_ hc rfl) (loop_of_takes hts hrest)
          (loop_of_takes hts' (hlen.2 hrest))
        omega
      · refine hp.congr ?_ ?_
        · rw [loop, if_pos hts, if_neg hrest]
        · rw [loop, if_pos hts', if_neg (fun h => hrest (hlen.1 h))]

theorem reads_upTo {stop : List Placed → Bool} (hs : ∀ us, Closed us → stop (us ++ ms) = stop us)
    (hn : ∀ us, next us = .newline → stop us = true) (h : Closed ts) :
    Reads ms (upTo stop) (upTo stop) ts := by
  -- a rule that stops at a line break never gets to the marker
  induction ts with
  | nil => exact absurd rfl h.ne_nil
  | cons t ts ih =>
    have hst := hs _ h
    rw [List.cons_append] at hst
    cases hstop : stop (t :: ts) with
    | true =>
      rw [hstop] at hst
      refine (reads_skip h).congr ?_ ?_
      · rw [upTo, if_pos hstop, skip]
      · rw [List.cons_append, upTo, if_pos hst, skip]
    | false =>
      rw [hstop] at hst
      have hk : t.kind ≠ .newline := by
        intro hk
        rw [hn (t :: ts) hk] at hstop
        cases hstop
      refine (ih (h.tail hk)).cons ?_ ?_
      · simp only [upTo, hstop, Bool.false_eq_true, if_false]
      · simp only [upTo, hst, Bool.false_eq_true, if_false]

theorem trivia_append (hm : Marker ms) (ts : List Placed) :
    trivia (ts ++ ms) = ⟨(trivia ts).trees, (trivia ts).rest ++ ms⟩ := by
  obtain ⟨m, us, rfl, hk⟩ := hm.cons
  induction ts with
  | nil => simp [trivia, upTo, hk, Kind.isTrivia]
  | cons t ts ih =>
    simp only [trivia, List.cons_append, upTo, next_cons] at ih ⊢
    by_cases ht : t.kind.isTrivia = true
    · simp [ht, ih]
    · simp [ht]

theorem reads_pastTrivia (hm : Marker ms) (h : Closed ts) (hn : pastTrivia ts ≠ [])
    (hr : Closed (pastTrivia ts) → next (pastTrivia ts) ≠ .newline →
      Reads ms r r' (pastTrivia ts)) :
    Reads ms (trivia.andThen r) (trivia.andThen r') ts := by
  have hc := h.dropWhile _ hn
  have hk : next (pastTrivia ts) ≠ .newline := by
    intro hk
    have ht := isTrivia_next_pastTrivia hn
    rw [hk] at ht
    cases ht
  have ht : Reads ms trivia trivia ts := ⟨trivia_append hm ts, by rw [rest_trivia]; exact hc⟩
  refine ht.andThen fun _ => ?_
  rw [rest_trivia]
  exact hr hc hk

end Rules

section Flow

variable {ms ts : List Placed}

theorem reads_quotedLiteral (h : Closed ts) (hk : next ts ≠ .newline) :
    Reads ms quotedLiteral quotedLiteral ts :=
  (reads_token h hk).within _

theorem pastBlank_of_newline {us : List Placed} (h : next us = .newline) : pastBlank us = us := by
  cases us with
  | nil => rfl
  | cons t us =>
    have hk : t.kind = .newline := h
    simp [pastBlank, hk]

theorem reads_flowPlain (h : Closed ts) (hk : next ts ≠ .newline) :
    Reads ms flowPlain flowPlain ts := by
  refine ((reads_token h hk).andThen fun hc =>
    reads_upTo (fun us hu => ?_) (fun us hu => ?_) hc).within _
  · rw [pastBlank_append hu, endsFlowPlain_append hu.pastBlank]
  · simp [pastBlank_of_newline hu, endsFlowPlain, hu]

theorem colonLength?_lt {adjacent : Bool} {n : Nat} (h : Closed ts)
    (hc : colonLength? adjacent ts = some n) :
    n < ts.length := by
  have hlen {us : List Placed} (hu : Closed us) : 0 < us.length := List.length_pos_iff.2 hu.ne_nil
  have hcolon {us : List Placed} {adjacent : Bool} (hu : Closed us)
      (hf : atFlowColon adjacent us = true) :
      1 < us.length := by
    have hk : next us = .colon := by
      simp only [atFlowColon, Bool.and_eq_true, decide_eq_true_eq] at hf
      exact hf.1
    have ht := hlen (closed_tail hu (by simp [hk]))
    rw [List.length_tail] at ht
    omega
  rw [colonLength?] at hc
  split at hc
  · next hf =>
    cases hc
    exact hcolon h hf
  · split at hc
    · next hf =>
      cases hc
      simp only [Bool.and_eq_true, decide_eq_true_eq] at hf
      have ht := hcolon (closed_tail h (by simp [hf.1])) hf.2
      rw [List.length_tail] at ht
      omega
    · cases hc

variable (hm : Marker ms) {node node' : Rule}
  (hn : ∀ us, Closed us → next us ≠ .newline → Reads ms node node' us)
include hm hn

theorem reads_flowValue (h : Closed ts) : Reads ms (flowValue node) (flowValue node') ts := by
  refine reads_when h (by rw [atFlowValueEnd_append hm h]) fun ht => ?_
  refine reads_pastTrivia hm h ?_ (hn _)
  intro hp
  simp [hp, atFlowValueEnd] at ht

theorem reads_flowPairTail {colon : Option Nat} (h : Closed ts)
    (hc : ∀ n, colon = some n → n < ts.length) :
    Reads ms (flowPairTail node colon) (flowPairTail node' colon) ts := by
  cases colon with
  | none => exact reads_skip h
  | some n => exact (reads_tokens h (hc n rfl)).andThen fun hc => reads_flowValue hm hn hc

theorem reads_flowEntry (b : Bracket) (h : Closed ts) (hk : next ts ≠ .newline) :
    Reads ms (flowEntry node b) (flowEntry node' b) ts := by
  have hkey := hn ts h hk
  cases hf : atFlowColon false ts with
  | true =>
    have ht : Reads ms (flowPairTail node (colonLength? false ts))
        (flowPairTail node' (colonLength? false ts)) ts :=
      reads_flowPairTail hm hn h fun n hc => colonLength?_lt h hc
    refine (ht.within .pair).congr ?_ ?_
    · simp only [flowEntry, hf, if_true]
    · simp only [flowEntry, atFlowColon_append h, hf, if_true, colonLength?_append h]
  | false =>
    have ht : Reads ms (flowPairTail node (colonLength? (endsItself (next ts)) (node ts).rest))
        (flowPairTail node' (colonLength? (endsItself (next ts)) (node ts).rest)) (node ts).rest :=
      reads_flowPairTail hm hn hkey.closed fun n hc => colonLength?_lt hkey.closed hc
    constructor
    · simp only [flowEntry, atFlowColon_append h, hf, Bool.false_eq_true, if_false, hkey.eq,
        next_append h,
        colonLength?_append hkey.closed, ht.eq]
      split <;> rfl
    · simp only [flowEntry, hf, Bool.false_eq_true, if_false]
      split
      · exact hkey.closed
      · exact ht.closed

theorem reads_flowBody (b : Bracket) (h : Closed ts) :
    Reads ms (flowBody node b) (flowBody node' b) ts := by
  refine Reads.andThen
    (reads_loop (fun us hu => flowContinues_append hm hu) (fun us hu ht => ?_) h) fun hc => ?_
  · simp only [flowContinues, Bool.and_eq_true] at ht
    refine reads_pastTrivia hm hu (ne_nil_of_contentAhead ht.1) fun hp hk => ?_
    exact reads_branch (by rw [next_append hp]) (fun _ => reads_token hp hk)
      fun _ => reads_flowEntry hm hn b hp hk
  · refine reads_when hc
      (pastTrivia_agrees hm (f := fun us => next us = b.closer) (fun us hu => ?_) ?_ hc)
      fun ht => ?_
    · rw [next_append hu]
    · rw [hm.opens]
      cases b <;> rfl
    · have hk := of_decide_eq_true ht
      refine reads_pastTrivia hm hc (ne_nil_of_next hk ?_) fun hp hnl => reads_token hp hnl
      cases b <;> decide

theorem reads_flowNodeOf (h : Closed ts) (hk : next ts ≠ .newline) :
    Reads ms (flowNodeOf node) (flowNodeOf node') ts := by
  have hc (b : Bracket) : Reads ms (flowCollectionOf node b) (flowCollectionOf node' b) ts :=
    ((reads_token h hk).andThen fun ht => reads_flowBody hm hn b ht).within _
  rw [Reads, flowNodeOf, flowNodeOf, next_append h]
  split
  · exact hc .square
  · exact hc .curly
  · exact reads_quotedLiteral h hk
  · exact reads_flowPlain h hk

end Flow

theorem reads_below {ms ts us : List Placed} {r : Rule} (h : Closed us)
    (hr : us.length < ts.length → Reads ms r r us) :
    Reads ms (below ts.length r skip) (below (ts ++ ms).length r skip) us := by
  have hlen : (us ++ ms).length < (ts ++ ms).length ↔ us.length < ts.length := by
    rw [List.length_append, List.length_append]
    omega
  by_cases hu : us.length < ts.length
  · exact (hr hu).congr (below_of_lt hu) (below_of_lt (hlen.2 hu))
  · exact (reads_skip h).congr (by rw [below, if_neg hu])
      (by rw [below, if_neg (fun h => hu (hlen.1 h))])

theorem reads_flowNode {ms : List Placed} (hm : Marker ms) {ts : List Placed} (h : Closed ts)
    (hk : next ts ≠ .newline) :
    Reads ms flowNode flowNode ts := by
  induction hn : ts.length using Nat.strongRecOn generalizing ts with
  | ind n ih =>
    refine Reads.congr (reads_flowNodeOf hm (fun us hu hku => reads_below hu fun hlt => ?_) h hk)
      (flowNode_eq skip ts) (flowNode_eq skip (ts ++ ms))
    exact ih us.length (by omega) hu hku rfl

end LosslessYaml.Grammar
