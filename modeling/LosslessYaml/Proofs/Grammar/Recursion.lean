import LosslessYaml.Proofs.Grammar.Progress

/-! Nested nodes are read from fewer tokens than the node around them. What the two recursive rules
do on an input that is not shorter therefore never matters (`flowNode_eq`, `blockNode_eq`), and
proofs about them may put there whatever rule suits them. -/

namespace LosslessYaml

namespace Rule

theorem below_self (n : Nat) (r : Rule) : below n r r = r := by
  funext ts
  rw [below, ite_self]

def AgreeUpTo (n : Nat) (r s : Rule) : Prop := ∀ ts, ts.length ≤ n → r ts = s ts

theorem AgreeUpTo.refl (n : Nat) (r : Rule) : AgreeUpTo n r r := fun _ _ => rfl

theorem AgreeUpTo.andThen {n : Nat} {r r' s s' : Rule} (hr : AgreeUpTo n r r') (hl : Lossless r)
    (hs : AgreeUpTo n s s') : AgreeUpTo n (r.andThen s) (r'.andThen s') := by
  intro ts h
  have h' := hs (r ts).rest (Nat.le_trans (hl.length_rest ts) h)
  simp only [Rule.andThen, ← hr ts h, h']

theorem AgreeUpTo.within {n : Nat} {r r' : Rule} (hr : AgreeUpTo n r r') (k : Kind) :
    AgreeUpTo n (r.within k) (r'.within k) := by
  intro ts h
  simp only [Rule.within, hr ts h]

theorem AgreeUpTo.branch {n : Nat} {r r' s s' : Rule} (hr : AgreeUpTo n r r')
    (hs : AgreeUpTo n s s')
    (test : List Placed → Bool) : AgreeUpTo n (branch test r s) (branch test r' s') := by
  intro ts h
  simp only [Rule.branch, hr ts h, hs ts h]

theorem AgreeUpTo.when {n : Nat} {r r' : Rule} (hr : AgreeUpTo n r r') (test : List Placed → Bool) :
    AgreeUpTo n (when test r) (when test r') :=
  hr.branch (AgreeUpTo.refl n skip) test

theorem AgreeUpTo.loop {n : Nat} {r r' : Rule} (hr : AgreeUpTo n r r') (test : List Placed → Bool) :
    AgreeUpTo n (loop test r) (loop test r') := by
  intro ts h
  fun_induction Rule.loop test r ts with
  | case1 ts ht p hp q ih =>
    rw [Rule.loop, if_pos ht, ← hr ts h, if_pos hp, ← ih (by omega)]
  | case2 ts ht p hp => rw [Rule.loop, if_pos ht, ← hr ts h, if_neg hp]
  | case3 ts ht => rw [Rule.loop, if_neg ht]

theorem AgreeUpTo.afterRule {n : Nat} {r r' s s' : Rule} {ts : List Placed} (hs : AgreeUpTo n s s')
    (hr : r ts = r' ts) (hn : (r ts).rest.length ≤ n) : r.andThen s ts = r'.andThen s' ts := by
  have h := hs (r ts).rest hn
  simp only [Rule.andThen, ← hr, h]

theorem AgreeUpTo.afterToken {n : Nat} {s s' : Rule} (hs : AgreeUpTo n s s') {ts : List Placed}
    (hts : ts ≠ []) (hn : ts.length ≤ n + 1) : token.andThen s ts = token.andThen s' ts := by
  have ht := takes_token hts
  rw [Takes] at ht
  exact hs.afterRule rfl (by omega)

end Rule

namespace Grammar

open Rule

section Flow

variable {n : Nat} {f g : Rule} (hf : Lossless f) (h : AgreeUpTo n f g)
include hf h

omit hf in
theorem agree_flowPairTail (colon : Option Nat) :
    AgreeUpTo n (flowPairTail f colon) (flowPairTail g colon) := by
  cases colon with
  | none => exact AgreeUpTo.refl n skip
  | some k =>
    have hv : AgreeUpTo n (trivia.andThen f) (trivia.andThen g) :=
      (AgreeUpTo.refl n trivia).andThen lossless_trivia h
    exact (AgreeUpTo.refl n (tokens k)).andThen (lossless_tokens k) (hv.when _)

theorem agree_flowEntry (b : Bracket) : AgreeUpTo n (flowEntry f b) (flowEntry g b) := by
  intro ts hts
  have hr : (f ts).rest.length ≤ n := Nat.le_trans (hf.length_rest ts) hts
  have ht := fun colon => agree_flowPairTail h colon (f ts).rest hr
  simp only [flowEntry, ← h ts hts, ht, ((agree_flowPairTail h _).within .pair) ts hts]

theorem agree_flowBody (b : Bracket) : AgreeUpTo n (flowBody f b) (flowBody g b) := by
  have he := (AgreeUpTo.refl n token).branch (agree_flowEntry hf h b) (fun ts => next ts = .comma)
  have hl : Lossless (trivia.andThen (branch (fun ts => next ts = .comma) token (flowEntry f b))) :=
    lossless_trivia.andThen (lossless_token.branch (lossless_flowEntry hf b) _)
  exact (((AgreeUpTo.refl n trivia).andThen lossless_trivia he).loop _).andThen (hl.loop _)
    (AgreeUpTo.refl n _)

end Flow

theorem flowNodeOf_congr {f g : Rule} (hf : Lossless f) {ts : List Placed}
    (h : ∀ us, us.length < ts.length → f us = g us) : flowNodeOf f ts = flowNodeOf g ts := by
  cases ts with
  | nil => rfl
  | cons t ts =>
    have ha : AgreeUpTo ts.length f g := fun us hus => h us (Nat.lt_succ_of_le hus)
    have hc (b : Bracket) : flowCollectionOf f b (t :: ts) = flowCollectionOf g b (t :: ts) :=
      congrArg (fun p : Parsed => (⟨[.node b.collection p.trees], p.rest⟩ : Parsed))
        ((agree_flowBody hf ha b).afterToken (List.cons_ne_nil t ts) (Nat.le_refl _))
    simp only [flowNodeOf, hc]

/-- Whatever is done with nested nodes that are not shorter, it is never done. -/
theorem flowNode_eq (other : Rule) (ts : List Placed) :
    flowNode ts = flowNodeOf (below ts.length flowNode other) ts := by
  have hl : Lossless (below ts.length flowNode skip) :=
    lossless_below (fun us _ => lossless_flowNode us) lossless_skip
  rw [flowNode]
  apply flowNodeOf_congr hl
  intro us hus
  rw [below_of_lt hus, below_of_lt hus]

theorem flowNode_unfold (ts : List Placed) : flowNode ts = flowNodeOf flowNode ts := by
  rw [flowNode_eq flowNode, below_self]

theorem flowNode_of_opener {b : Bracket} {ts : List Placed} (h : next ts = b.opener) :
    flowNode ts = flowCollectionOf flowNode b ts := by
  rw [flowNode_unfold, flowNodeOf, h]
  cases b <;> rfl

theorem flowNode_induct {P : List Placed → Parsed → Prop} {other : Rule} (hl : Lossless other)
    (base : ∀ ts, P ts (other ts))
    (step : ∀ node, Lossless node → (∀ ts, P ts (node ts)) → ∀ ts, P ts (flowNodeOf node ts))
    (ts : List Placed) : P ts (flowNode ts) := by
  induction h : ts.length using Nat.strongRecOn generalizing ts with
  | ind n ih =>
    rw [flowNode_eq other]
    apply step _ (lossless_below (fun us _ => lossless_flowNode us) hl)
    intro us
    rw [below]
    split
    · exact ih us.length (by omega) us rfl
    · exact base us

section Block

variable {n : Nat} {f g : Nat → Rule} (hf : ∀ min, Lossless (f min))
    (h : ∀ min, AgreeUpTo n (f min) (g min))
include hf h

omit hf in
theorem agree_deeper (col : Nat) : AgreeUpTo n (deeper f col) (deeper g col) :=
  ((AgreeUpTo.refl n trivia).andThen lossless_trivia (h _)).when _

theorem agree_itemValue (col : Nat) : AgreeUpTo n (itemValue f col) (itemValue g col) :=
  (agree_deeper h col).branch ((AgreeUpTo.refl n blank).andThen lossless_blank
    ((h _).andThen (hf _) (AgreeUpTo.refl n restOfLine))) _

theorem agree_item (col : Nat) : AgreeUpTo n (item f col) (item g col) :=
  ((AgreeUpTo.refl n token).andThen lossless_token (agree_itemValue hf h col)).within _

theorem agree_items (col : Nat) : AgreeUpTo n
    (loop (entryFollows col atDash) (trivia.andThen (item f col)))
    (loop (entryFollows col atDash) (trivia.andThen (item g col))) :=
  ((AgreeUpTo.refl n trivia).andThen lossless_trivia (agree_item hf h col)).loop _

theorem agree_sequence (col : Nat) : AgreeUpTo n (sequence f col) (sequence g col) :=
  ((agree_item hf h col).andThen (lossless_item hf col) (agree_items hf h col)).within _

theorem agree_pairValueBelow (col : Nat) :
    AgreeUpTo n (pairValueBelow f col) (pairValueBelow g col) :=
  ((AgreeUpTo.refl n trivia).andThen lossless_trivia (agree_sequence hf h col)).branch
    (agree_deeper h col) _

theorem agree_pairValue (col : Nat) : AgreeUpTo n (pairValue f col) (pairValue g col) :=
  (agree_pairValueBelow hf h col).branch ((AgreeUpTo.refl n blank).andThen lossless_blank
    ((AgreeUpTo.refl n properties).andThen lossless_properties
      ((agree_pairValueBelow hf h col).branch (AgreeUpTo.refl n _) _))) _

theorem agree_pairTail (col : Nat) : AgreeUpTo n (pairTail f col) (pairTail g col) :=
  (AgreeUpTo.refl n _).andThen (lossless_token.when _)
    ((AgreeUpTo.refl n _).andThen (lossless_token.when _) (agree_pairValue hf h col))

theorem agree_explicitTail (col : Nat) : AgreeUpTo n
    (when (entryFollows col atColon) (trivia.andThen (pairTail f col)))
    (when (entryFollows col atColon) (trivia.andThen (pairTail g col))) :=
  ((AgreeUpTo.refl n trivia).andThen lossless_trivia (agree_pairTail hf h col)).when _

theorem agree_pair (col : Nat) : AgreeUpTo n (pair f col) (pair g col) := by
  have hk : AgreeUpTo n (explicitKey f col) (explicitKey g col) :=
    ((AgreeUpTo.refl n token).andThen lossless_token (agree_itemValue hf h col)).within _
  exact ((hk.andThen (lossless_explicitKey hf col) (agree_explicitTail hf h col)).branch
    ((AgreeUpTo.refl n _).andThen (lossless_key.when _) (agree_pairTail hf h col)) _).within _

theorem agree_pairs (col : Nat) : AgreeUpTo n
    (loop (entryFollows col atEntry) (trivia.andThen (pair f col)))
    (loop (entryFollows col atEntry) (trivia.andThen (pair g col))) :=
  ((AgreeUpTo.refl n trivia).andThen lossless_trivia (agree_pair hf h col)).loop _

theorem agree_bareNode (min : Nat) : AgreeUpTo n (bareNode f min) (bareNode g min) := by
  intro ts hts
  have hm : mapping f (column ts) ts = mapping g (column ts) ts :=
    ((agree_pair hf h _).andThen (lossless_pair hf _) (agree_pairs hf h _)).within _ ts hts
  rw [bareNode, bareNode, agree_sequence hf h _ ts hts, hm]

omit hf in
theorem agree_describedBelow (min : Nat) :
    AgreeUpTo n (describedBelow f min) (describedBelow g min) :=
  ((AgreeUpTo.refl n trivia).andThen lossless_trivia (h _)).when _

end Block

section Nested

variable {f g : Nat → Rule} (hf : ∀ min, Lossless (f min)) {n : Nat}
    (h : ∀ min, AgreeUpTo n (f min) (g min))
  {ts : List Placed} (hn : ts.length ≤ n + 1)
include hf h hn

theorem item_congr (col : Nat) (hts : ts ≠ []) : item f col ts = item g col ts := by
  have ha : token.andThen (itemValue f col) ts = token.andThen (itemValue g col) ts :=
    (agree_itemValue hf h col).afterToken hts hn
  rw [item, item, Rule.within, Rule.within, ha]

theorem sequence_congr (col : Nat) (hts : ts ≠ []) : sequence f col ts = sequence g col ts := by
  have hr := takes_item hf col hts
  rw [Takes] at hr
  have ha := (agree_items hf h col).afterRule (item_congr hf h hn col hts) (by omega)
  rw [sequence, sequence, Rule.within, Rule.within, ha]

theorem pairTail_congr (col : Nat)
    (hc : next ts = .colon ∨ next ts = .whitespace ∧ next ts.tail = .colon) :
    pairTail f col ts = pairTail g col ts := by
  have hr := takes_colon hc
  rw [Takes] at hr
  rw [pairTail, pairTail, ← andThen_assoc, ← andThen_assoc]
  exact (agree_pairValue hf h col).afterRule rfl (by omega)

theorem pair_congr (col : Nat) (he : atEntry ts = true) : pair f col ts = pair g col ts := by
  rw [pair, pair, Rule.within, Rule.within, Rule.branch, Rule.branch]
  cases hq : atQuestion ts with
  | true =>
    have hts := ne_nil_of_atQuestion hq
    have hk : explicitKey f col ts = explicitKey g col ts := by
      have ha : token.andThen (itemValue f col) ts = token.andThen (itemValue g col) ts :=
        (agree_itemValue hf h col).afterToken hts hn
      rw [explicitKey, explicitKey, Rule.within, Rule.within, ha]
    have hr : (explicitKey f col ts).rest.length < ts.length :=
      ((takes_token hts).andThen (lossless_itemValue hf col)).within .key
    have ha := (agree_explicitTail hf h col).afterRule hk (by omega)
    simp only [if_true, ha]
  | false =>
    have ha : (when (fun ts => next ts ≠ .colon) key).andThen (pairTail f col) ts =
        (when (fun ts => next ts ≠ .colon) key).andThen (pairTail g col) ts := by
      by_cases hk : next ts = .colon
      · have hw : when (fun ts => next ts ≠ .colon) key ts = ⟨[], ts⟩ := by
          simp [Rule.when, Rule.branch, hk, skip]
        simp only [Rule.andThen, hw, pairTail_congr hf h hn col (.inl hk)]
      · have hw : when (fun ts => next ts ≠ .colon) key ts = key ts := by
          simp [Rule.when, Rule.branch, hk]
        rcases takes_key_or (colonAhead_of_atEntry he hq) hk with hr | ⟨hr, hb, hc⟩
        · rw [Takes, ← hw] at hr
          exact (agree_pairTail hf h col).afterRule rfl (by omega)
        · simp only [Rule.andThen, hw, hr, pairTail_congr hf h hn col (.inr ⟨hb, hc⟩)]
    simp only [Bool.false_eq_true, if_false, ha]

theorem mapping_congr (col : Nat) (he : atEntry ts = true) :
    mapping f col ts = mapping g col ts := by
  have hr := takes_pair hf col he
  rw [Takes] at hr
  have ha := (agree_pairs hf h col).afterRule (pair_congr hf h hn col he) (by omega)
  rw [mapping, mapping, Rule.within, Rule.within, ha]

theorem bareNode_congr (min : Nat) (hts : ts ≠ []) : bareNode f min ts = bareNode g min ts := by
  rw [bareNode, bareNode, sequence_congr hf h hn _ hts]
  split
  · rfl
  · split
    · rfl
    · split
      · next he => exact mapping_congr hf h hn _ he
      · rfl

end Nested

theorem blockNodeOf_congr {f g : Nat → Rule} (hf : ∀ min, Lossless (f min)) (min : Nat)
    {ts : List Placed}
    (h : ∀ col us, us.length < ts.length → f col us = g col us) :
    blockNodeOf f min ts = blockNodeOf g min ts := by
  cases ts with
  | nil =>
    have hb : bareNode f min [] = bareNode g min [] := by
      simp [bareNode, atDash, atQuestion, atIndicator, atBlockLiteral, atEntry, colonAhead]
    simp [blockNodeOf, Rule.branch, atProperty, hb]
  | cons t ts =>
    have ha (col : Nat) : AgreeUpTo ts.length (f col) (g col) :=
      fun us hus => h col us (Nat.lt_succ_of_le hus)
    have hb := bareNode_congr hf ha (Nat.le_refl _) min (List.cons_ne_nil t ts)
    rw [blockNodeOf, blockNodeOf, Rule.branch, Rule.branch, hb]
    split
    · next hp =>
      simp only [Bool.and_eq_true] at hp
      have hr := takes_properties hp.1
      rw [Takes, List.length_cons] at hr
      exact ((agree_describedBelow ha min).branch (agree_bareNode hf ha min) _).afterRule
        rfl (by omega)
    · rfl

theorem blockNode_eq (other : Nat → Rule) (min : Nat) (ts : List Placed) :
    blockNode min ts =
      blockNodeOf (fun col => below ts.length (blockNode col) (other col)) min ts := by
  have hl (col : Nat) : Lossless (below ts.length (blockNode col) skip) :=
    lossless_below (fun us _ => lossless_blockNode col us) lossless_skip
  rw [blockNode]
  apply blockNodeOf_congr hl
  intro col us hus
  rw [below_of_lt hus, below_of_lt hus]

theorem blockNode_induct {P : Nat → List Placed → Parsed → Prop} {other : Nat → Rule}
    (hl : ∀ min, Lossless (other min)) (base : ∀ min ts, P min ts (other min ts))
    (step : ∀ node, (∀ min, Lossless (node min)) → (∀ min ts, P min ts (node min ts)) →
      ∀ min ts, P min ts (blockNodeOf node min ts))
    (min : Nat) (ts : List Placed) : P min ts (blockNode min ts) := by
  induction h : ts.length using Nat.strongRecOn generalizing min ts with
  | ind n ih =>
    rw [blockNode_eq other]
    apply step _ (fun col => lossless_below (fun us _ => lossless_blockNode col us) (hl col))
    intro col us
    rw [below]
    split
    · exact ih us.length (by omega) col us rfl
    · exact base col us

end Grammar

end LosslessYaml
