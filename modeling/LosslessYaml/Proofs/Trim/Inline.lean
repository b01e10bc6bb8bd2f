import LosslessYaml.Proofs.Trim.Forest

namespace LosslessYaml.Grammar

open Rule Trim LosslessYaml.Tree
open Token (StartsBare EndsBare EndsFilled gapAhead)

theorem Spread.pastTrivia {ts : List Placed} (hs : Spread ts) : Spread (pastTrivia ts) :=
  rest_trivia ts ▸ hs.rest lossless_trivia

theorem loose_upTo {stop : List Placed → Bool} {ts : List Placed}
    (h : ∀ t us, Spread (t :: us) → stop (t :: us) = false → us = [] ∨ stop us = true → t.kind.isTrivia = false)
    (hs : Spread ts) : Loose (upTo stop ts).trees :=
  ⟨trimmed_flat (flat_upTo stop) ts, (endsBare_upTo h hs).imp_right ends_of_bare⟩

theorem whole_token_then {r : Rule} {ts : List Placed} (hr : Ready ts) (h : Loose (r (token ts).rest).trees) :
    Whole (token.andThen r ts).trees :=
  (whole_token hr).append h

section Flow

variable {ts : List Placed}

theorem whole_flowPlain (hs : Spread ts) (hr : Ready ts) : Whole (flowPlain ts).trees := by
  have hrest : Loose (upTo (fun ts => endsFlowPlain (pastBlank ts)) (token ts).rest).trees :=
    ⟨trimmed_flat (flat_upTo _) _, (ends_flowRest (hs.rest lossless_token)).imp_right ends_of_bare⟩
  exact (whole_token_then hr hrest).within hr (lossless_token.andThen (lossless_upTo _)) (by decide)

theorem whole_quotedLiteral (hr : Ready ts) : Whole (quotedLiteral ts).trees :=
  (whole_token hr).within hr lossless_token (by decide)

theorem whole_tokens_colonLength {adjacent : Bool} {n : Nat} (h : colonLength? adjacent ts = some n) :
    Whole (tokens n ts).trees := by
  obtain ⟨c, hc, htrees⟩ := tokens_colonLength h
  have hcolon : Whole [.leaf c] := whole_leaf (by rw [hc]; rfl)
  rcases htrees with heq | ⟨w, -, heq⟩
  · rwa [heq]
  · have hblank : Trimmed [.leaf w] := trimmed_leaves fun u hu => by rw [List.mem_singleton.1 hu]; rfl
    rw [heq]
    exact hblank.before hcolon

variable {node : Rule} (hl : Lossless node) (hn : ∀ ts, Spread ts → Ready ts → Whole (node ts).trees)
include hn

theorem loose_flowValue (hs : Spread ts) : Loose (flowValue node ts).trees :=
  trees_when loose_nil fun h =>
    (whole_afterTrivia (hn _ hs.pastTrivia (fresh_of_atFlowValueEnd (by simpa using h)).ready)).loose

theorem whole_flowPairTail {adjacent : Bool} {n : Nat} (hs : Spread ts) (h : colonLength? adjacent ts = some n) :
    Whole (flowPairTail node (some n) ts).trees :=
  (whole_tokens_colonLength h).append (loose_flowValue hn (hs.rest (lossless_tokens n)))

theorem loose_flowPairTail (adjacent : Bool) (hs : Spread ts) :
    Loose (flowPairTail node (colonLength? adjacent ts) ts).trees := by
  cases h : colonLength? adjacent ts with
  | none => exact loose_nil
  | some n => exact (whole_flowPairTail hn hs h).loose

include hl

theorem whole_flowEntry (b : Bracket) (hs : Spread ts) (hr : Ready ts) : Whole (flowEntry node b ts).trees := by
  have hnode := hn ts hs hr
  rw [flowEntry]
  split
  · next hc =>
    have hlength : colonLength? false ts = some 1 := by simp [colonLength?, hc]
    rw [hlength]
    exact (whole_flowPairTail hn hs hlength).within hr (lossless_flowPairTail hl _) (by decide)
  · dsimp only
    split
    · exact hnode
    · have hkey : Whole (node.within .key ts).trees := hnode.within hr hl (by decide)
      have hpair := hkey.append (loose_flowPairTail hn (endsItself (next ts)) (hs.rest hl))
      -- the pair starts as its key does
      have hstart := (hkey.tidy _ List.mem_cons_self rfl).1
      exact whole_node (by decide) (hpair.rowed .pair []) (hstart.append _) hpair.ends

theorem loose_flowEntries (b : Bracket) (hs : Spread ts) : Loose (flowEntries node b ts).trees := by
  refine loose_loop (lossless_trivia.andThen (lossless_token.branch (lossless_flowEntry hl b) _)) (fun us hus hc => ?_)
    hs
  simp only [flowContinues, Bool.and_eq_true] at hc
  have hr := ready_pastTrivia (ne_nil_of_contentAhead hc.1)
  exact whole_afterTrivia
    (trees_branch (fun _ => whole_token hr) fun _ => whole_flowEntry hl hn b hus.pastTrivia hr)

omit hl hn in
theorem loose_flowClose (b : Bracket) (ts : List Placed) : Loose (flowClose b ts).trees := by
  refine trees_when loose_nil fun h => (whole_afterTrivia (whole_token ?_)).loose
  exact ready_of_next (of_decide_eq_true h) (by cases b <;> decide) (by cases b <;> rfl)

theorem whole_flowCollectionOf (b : Bracket) (hs : Spread ts) (hr : Ready ts) :
    Whole (flowCollectionOf node b ts).trees := by
  have hbody : Loose (flowBody node b (token ts).rest).trees :=
    (loose_flowEntries hl hn b (hs.rest lossless_token)).append (loose_flowClose b _)
  exact (whole_token_then hr hbody).within hr (lossless_token.andThen (lossless_flowBody hl b))
    (by cases b <;> decide)

theorem whole_flowNodeOf (hs : Spread ts) (hr : Ready ts) : Whole (flowNodeOf node ts).trees := by
  rw [flowNodeOf]
  split
  · exact whole_flowCollectionOf hl hn .square hs hr
  · exact whole_flowCollectionOf hl hn .curly hs hr
  · exact whole_quotedLiteral hr
  · exact whole_flowPlain hs hr

end Flow

theorem whole_flowNode {ts : List Placed} (hs : Spread ts) (hr : Ready ts) : Whole (flowNode ts).trees :=
  flowNode_induct (P := fun ts p => Spread ts → Ready ts → Whole p.trees) lossless_flowPlain
    (fun _ => whole_flowPlain) (fun _ hl hn _ => whole_flowNodeOf hl hn) ts hs hr

section Line

variable {ts : List Placed}

theorem Ready.pastBlank (h : Ready ts) : pastBlank ts = ts := by
  cases ts with
  | nil => rfl
  | cons t ts =>
    have hw : t.kind ≠ .whitespace := fun hw => by
      have hbare := h.bare
      rw [next_cons, hw] at hbare
      cases hbare
    rw [Grammar.pastBlank, if_neg hw]

def endsLine (ts : List Placed) : Bool :=
  match next ts with
  | .newline | .eof | .comment => true
  | _ => false

theorem atLineEnd_eq (ts : List Placed) : atLineEnd ts = endsLine (pastBlank ts) := rfl

theorem endsLine_of_mem (h : next ts ∈ [Kind.newline, .eof, .comment]) : endsLine ts = true := by
  simp only [List.mem_cons, List.not_mem_nil, or_false] at h
  rcases h with h | h | h <;> rw [endsLine, h]

theorem rest_token (ts : List Placed) : (token ts).rest = ts.tail := by cases ts <;> rfl

theorem pastBlank_of_blank (hw : next ts = .whitespace) : pastBlank ts = ts.tail := by
  cases ts with
  | nil => rfl
  | cons t ts => exact if_pos hw

theorem ready_of_not_atLineEnd (h : atLineEnd ts = false) (hw : next ts ≠ .whitespace) : Ready ts := by
  cases ts with
  | nil => cases h
  | cons t ts =>
    refine ⟨?_, List.cons_ne_nil t ts⟩
    rw [next_cons] at hw ⊢
    rw [atLineEnd_eq, Grammar.pastBlank, if_neg hw] at h
    cases hk : t.kind <;> first | rfl | simp [endsLine, hk] at h hw

theorem ready_pastBlank (hs : Spread ts) (h : atLineEnd ts = false) : Ready (pastBlank ts) := by
  cases ts with
  | nil => cases h
  | cons t ts =>
    by_cases hw : t.kind = .whitespace
    · rw [atLineEnd_eq, Grammar.pastBlank, if_pos hw] at h
      rw [Grammar.pastBlank, if_pos hw]
      have hnext : next ts ≠ .whitespace := by
        cases ts with
        | nil => decide
        | cons u us => exact (List.isChain_cons_cons.1 hs).1 hw
      refine ready_of_not_atLineEnd ?_ hnext
      rw [atLineEnd_eq]
      cases ts with
      | nil => exact h
      | cons u us => rwa [Grammar.pastBlank, if_neg (next_cons u us ▸ hnext)]
    · rw [Grammar.pastBlank, if_neg hw]
      exact ready_of_not_atLineEnd h hw

theorem atLineEnd_pastBlank (hs : Spread ts) (h : atLineEnd ts = false) : atLineEnd (pastBlank ts) = false := by
  rw [atLineEnd_eq, (ready_pastBlank hs h).pastBlank, ← atLineEnd_eq, h]

theorem loose_upToKeyEnd (hs : Spread ts) : Loose (upTo atKeyEnd ts).trees := by
  have hend (us : List Placed) (hus : next us ∈ [Kind.newline, .eof, .comment]) :
      (endsLine us || atColon us) = true := by
    rw [endsLine_of_mem hus, Bool.true_or]
  exact loose_upTo (fun _ _ => isTrivia_of_pastBlank hend) hs

theorem trimmed_blank (ts : List Placed) : Trimmed (blank ts).trees :=
  trees_when trimmed_nil fun _ => trimmed_flat flat_token ts

theorem whole_afterBlank {r : Rule} (h : Whole (r (pastBlank ts)).trees) : Whole (blank.andThen r ts).trees := by
  rw [← rest_blank] at h
  exact (trimmed_blank ts).before h

theorem loose_restOfLine (hs : Spread ts) : Loose (restOfLine ts).trees := by
  refine trees_when loose_nil fun h => (whole_afterBlank ?_).loose
  have hend : atLineEnd ts = false := by simpa using h
  have hr := ready_pastBlank hs hend
  have hpast : Spread (pastBlank ts) := rest_blank ts ▸ hs.rest lossless_blank
  have hline : Loose (line (pastBlank ts)).trees :=
    loose_upTo (fun _ _ => isTrivia_of_pastBlank fun _ => endsLine_of_mem) hpast
  have hne : (line (pastBlank ts)).trees ≠ [] := fun hnil => by
    rcases stop_of_trees_upTo hnil with hempty | hstop
    · exact hr.nonempty hempty
    · rw [atLineEnd_pastBlank hs hend] at hstop
      cases hstop
  exact whole_within hr (lossless_upTo _) (by decide) (hline.rowed _ _) (hline.ends.resolve_left hne)

end Line

section Scalar

variable {ts : List Placed}

theorem isTrivia_of_continuesName {t : Placed} (h : continuesName (t :: ts) = true) : t.kind.isTrivia = false := by
  cases hk : t.kind <;> first | rfl | simp [continuesName, hk] at h

theorem whole_name (hs : Spread ts) (hr : Ready ts) : Whole (name ts).trees :=
  whole_token_then hr
    (loose_upTo (fun _ _ _ h _ => isTrivia_of_continuesName (by simpa using h)) (hs.rest lossless_token))

theorem ends_plainRest {min : Nat} (gap : Bool) (hs : Spread ts) (h : gap = true → Awaits min ts) :
    gap = false ∧ (plainRest min gap ts).trees = [] ∨ EndsBare (leavesOf (plainRest min gap ts).trees) := by
  -- behind its first token a plain scalar takes no trivia that nothing of it follows
  induction ts generalizing gap with
  | nil =>
    cases gap with
    | false => exact .inl ⟨rfl, rfl⟩
    | true =>
      obtain ⟨us, t, rest, hnil, -⟩ := h rfl
      simp at hnil
  | cons t ts ih =>
    have htake (hw : Awaits min ts) : EndsBare (leavesOf (.leaf t.token :: (plainRest min true ts).trees)) :=
      ((ih true hs.tail fun _ => hw).resolve_left fun h => absurd h.1 (by decide)).behind [t.token]
    cases hgap : (gap && isLineGap t.kind) with
    | true =>
      have hg := hgap
      simp only [Bool.and_eq_true] at hg
      rw [plainRest_gap hgap]
      exact .inr (htake ((h hg.1).tail hg.2))
    | false =>
      cases hend : atLineEnd (t :: ts) with
      | false =>
        rw [plainRest_line hgap hend]
        refine .inr ?_
        rcases ih false hs.tail nofun with ⟨-, hnil⟩ | hbare
        · -- the scalar ends behind this token
          have hstop : ts = [] ∨ endsLine (pastBlank ts) = true := by
            cases ts with
            | nil => exact .inl rfl
            | cons u us =>
              right
              rw [← atLineEnd_eq]
              cases hu : atLineEnd (u :: us) with
              | true => rfl
              | false =>
                rw [plainRest_line rfl hu] at hnil
                cases hnil
          have hbare := isTrivia_of_pastBlank (fun _ => endsLine_of_mem) hs hend hstop
          rw [hnil, leavesOf, leaves, leavesOf, List.append_nil]
          exact Token.endsBare_singleton hbare
        · exact hbare.behind [t.token]
      | true =>
        have hfalse : gap = false := by
          cases hg : gap with
          | false => rfl
          | true =>
            rw [hg, Bool.true_and] at hgap
            rw [((h hg).head hgap).1] at hend
            cases hend
        cases hcont : plainContinues min (t :: ts) with
        | true =>
          rw [plainRest_below hgap hend hcont]
          exact .inr (htake (awaits_of_plainContinues hcont))
        | false =>
          rw [plainRest_end hgap hend hcont]
          exact .inl ⟨hfalse, rfl⟩

theorem loose_plainRest (min : Nat) (hs : Spread ts) : Loose (plainRest min false ts).trees :=
  ⟨trimmed_flat (flat_plainRest min false) ts, (ends_plainRest false hs nofun).imp And.right ends_of_bare⟩

theorem whole_plainScalar (min : Nat) (hs : Spread ts) (hr : Ready ts) : Whole (plainScalar min ts).trees :=
  (whole_token_then hr (loose_plainRest min (hs.rest lossless_token))).within hr
    (lossless_token.andThen (lossless_plainRest min false)) (by decide)

theorem gapAhead_of_atGap {us vs : List Placed} (h : atGap (us ++ vs) = true) :
    gapAhead (us.map Placed.token) = true := by
  cases us with
  | nil => rfl
  | cons u us =>
    rw [List.cons_append, ← gapAhead_map_token] at h
    exact h

theorem stray_plainScalar (min : Nat) (front : List Tree) {e : Tree} (he : e.kind = .anchor ∨ e.kind = .tag)
    (hs : Spread ts) (hw : next ts = .whitespace) (hc : atColon ts.tail = true) :
    Rowed .pair (front ++ [e]) (plainScalar min ts).trees ∧ Ends (plainScalar min ts).trees := by
  match ts with
  | [] => cases hw
  | [w] => cases hc
  | w :: c :: us =>
    have hkind : c.kind = .colon := next_of_atIndicator hc
    have hgap : atGap us = true := by
      simp only [atColon, atIndicator, List.tail_cons, Bool.and_eq_true] at hc
      exact hc.2
    have hend : atLineEnd (c :: us) = false := by
      simp [atLineEnd_eq, Grammar.pastBlank, hkind, endsLine]
    have htrees : (plainScalar min (w :: c :: us)).trees =
        [.node .literal (.leaf w.token :: .leaf c.token :: (plainRest min false us).trees)] := by
      rw [plainScalar, Rule.within, Rule.andThen, token, plainRest_line rfl hend]
      rfl
    obtain ⟨vs, hus, hvs⟩ := lossless_plainRest min false us
    have hrest := loose_plainRest min hs.tail.tail
    have hbody : Trimmed (.leaf w.token :: .leaf c.token :: (plainRest min false us).trees) := by
      have hleaves : Trimmed [.leaf w.token, .leaf c.token] := trimmed_leaves (by simp [isNode])
      exact hleaves.append hrest.toTrimmed
    have hcolon : Whole [.leaf c.token] := whole_leaf (by rw [show c.token.kind = .colon from hkind]; rfl)
    have hends : Ends (.leaf w.token :: .leaf c.token :: (plainRest min false us).trees) :=
      (hcolon.append hrest).ends.behind [.leaf w.token]
    have hblank : StartsBlank .pair (leavesOf (.leaf w.token :: .leaf c.token :: (plainRest min false us).trees)) := by
      refine ⟨w.token, c.token, _, rfl, hw, by rw [show c.token.kind = .colon from hkind]; rfl, fun _ => ⟨hkind, ?_⟩⟩
      rw [hvs]
      exact gapAhead_of_atGap (hus ▸ hgap)
    have hstray : (Kind.pair, e.kind, Kind.literal) ∈ strayKinds := by
      rcases he with he | he <;> rw [he] <;> decide
    rw [htrees]
    exact ⟨rowed_stray hstray hblank hbody hends, hends.node _⟩

end Scalar

section Literal

variable {ts : List Placed}

theorem kind_of_mem_upTo {k : Kind} {t : Token} {ts : List Placed}
    (h : t ∈ leavesOf (upTo (fun ts => next ts = k) ts).trees) : t.kind ≠ k := by
  induction ts with
  | nil => cases h
  | cons u us ih =>
    rw [upTo] at h
    split at h
    · cases h
    · next hu =>
      rcases List.mem_cons.1 h with rfl | h
      · exact fun hk => hu (decide_eq_true hk)
      · exact ih h

theorem ends_header (hr : Ready ts) :
    StartsBare (leavesOf (upTo (fun ts => next ts = .newline) ts).trees) ∧
      EndsFilled (leavesOf (upTo (fun ts => next ts = .newline) ts).trees) := by
  have hstart : StartsBare (leavesOf (upTo (fun ts => next ts = .newline) ts).trees) := by
    refine hr.starts (lossless_upTo _) fun hnil => ?_
    cases ts with
    | nil => exact hr.nonempty rfl
    | cons t ts =>
      have hbare := hr.bare
      have hstop : next (t :: ts) ≠ .newline := fun hk => by
        rw [hk] at hbare
        cases hbare
      rw [upTo, if_neg fun h => hstop (of_decide_eq_true h)] at hnil
      cases hnil
  obtain ⟨t, us, htokens, ht⟩ := hstart
  refine ⟨⟨t, us, htokens, ht⟩, [], t, us, htokens, fun hw => ?_, fun v hv => ?_⟩
  · rw [hw] at ht
    cases ht
  · exact kind_of_mem_upTo (htokens ▸ hv)

theorem rowed_blockLiteralContent (min : Nat) {header : List Tree} (hs : Spread ts)
    (hts : ts = [] ∨ next ts = .newline) :
    Rowed .blockLiteral [.node .blockLiteralHeader header] (blockLiteralContent min ts).trees ∧
      (leavesOf (blockLiteralContent min ts).trees = [] ∨
        EndsFilled (leavesOf (blockLiteralContent min ts).trees)) := by
  rw [blockLiteralContent]
  split
  · next n hn =>
    cases ts with
    | nil =>
      rw [List.tail_nil, contentLength?_nil] at hn
      cases hn
    | cons t ts =>
      have hnewline : t.token.kind = .newline := hts.resolve_left (List.cons_ne_nil t ts)
      obtain ⟨us, hus, hleaves⟩ := lossless_tokens n ts
      have htake : us = ts.take n := List.append_inj_left' (hus.symm.trans (List.take_append_drop n ts).symm) rfl
      have hfilled : EndsFilled (leavesOf (tokens n ts).trees) := by
        rw [hleaves, htake]
        exact endsFilled_of_contentLength? hs.tail hn
      have hneat : Neat .blockLiteralContent (tokens n ts).trees :=
        ⟨row_of_tidy (trimmed_flat (flat_tokens n) ts).tidy, fun _ => .inl hfilled, fun h => absurd (by decide) h⟩
      refine ⟨⟨fun u => ⟨trivial, ⟨hneat, (trimmed_flat (flat_tokens n) ts).parts _⟩, trivial⟩, .inl nofun,
        .inr (.content hnewline hfilled), trivial⟩, .inr ?_⟩
      have hbehind := hfilled.behind [t.token]
      rwa [← leavesOf_node .blockLiteralContent] at hbehind
  · have hneat : Neat .blockLiteralContent [] := ⟨trivial, fun _ => .inr ⟨rfl, rfl⟩, fun h => absurd (by decide) h⟩
    exact ⟨⟨fun u => ⟨⟨hneat, trivial⟩, trivial⟩, .inr .empty, trivial⟩, .inl rfl⟩

theorem whole_literal {hs cs : List Tree} (hflat : Trimmed hs) (hstart : StartsBare (leavesOf hs))
    (hheader : EndsFilled (leavesOf hs)) (hcs : Rowed .blockLiteral [.node .blockLiteralHeader hs] cs)
    (hfilled : leavesOf cs = [] ∨ EndsFilled (leavesOf cs)) :
    Whole [.node .blockLiteral (.node .blockLiteralHeader hs :: cs)] := by
  have hneat : Neat .blockLiteralHeader hs :=
    ⟨row_of_tidy hflat.tidy, fun _ => .inl hheader, fun h => absurd (by decide) h⟩
  have hfirst : Rowed .blockLiteral [] [.node .blockLiteralHeader hs] :=
    ⟨fun u => ⟨⟨hneat, hflat.parts u⟩, trivial⟩, .inr (.header hstart), trivial⟩
  have hbody := hfirst.append hcs
  have hleaves : leavesOf (.node .blockLiteralHeader hs :: cs) = leavesOf hs ++ leavesOf cs := by
    rw [leavesOf, leaves]
  have hend : EndsFilled (leavesOf (.node .blockLiteralHeader hs :: cs)) := by
    rw [hleaves]
    rcases hfilled with hnil | hfilled
    · rwa [hnil, List.append_nil]
    · exact hfilled.behind _
  refine ⟨⟨fun u => ⟨⟨⟨hbody.row, fun _ => .inl hend, fun _ => .inr (.here _)⟩, hbody.parts u⟩, trivial⟩,
    fun t ht _ => ?_⟩, ?_, .inr ⟨[], _, rfl, .here _⟩⟩
  · rw [List.mem_singleton.1 ht, leaves, hleaves]
    exact ⟨hstart.append _, show Kind.blockLiteral ∉ literalParts by decide⟩
  · rwa [leavesOf_node]

theorem whole_blockLiteral (min : Nat) (hs : Spread ts) (hr : Ready ts) : Whole (blockLiteral min ts).trees := by
  obtain ⟨hstart, hheader⟩ := ends_header hr
  obtain ⟨hcontent, hfilled⟩ :=
    rowed_blockLiteralContent min (hs.rest (lossless_upTo _)) (rest_upTo_newline ts)
  exact whole_literal (trimmed_flat (flat_upTo _) ts) hstart hheader hcontent hfilled

theorem whole_inlineValue (min : Nat) (hs : Spread ts) (hr : Ready ts) : Whole (inlineValue min ts).trees := by
  have herror : Whole (token.within .error ts).trees := (whole_token hr).within hr lossless_token (by decide)
  rw [inlineValue]
  split
  · exact whole_blockLiteral min hs hr
  · exact whole_blockLiteral min hs hr
  · exact whole_flowNode hs hr
  · exact whole_flowNode hs hr
  · exact whole_quotedLiteral hr
  · exact herror
  · exact herror
  · exact herror
  · split
    · exact (whole_name hs hr).within hr lossless_name (by decide)
    · exact whole_plainScalar min hs hr

theorem inlineValue_of_blank (min : Nat) (hw : next ts = .whitespace) : inlineValue min ts = plainScalar min ts := by
  simp [inlineValue, atAlias, hw]

end Literal

section Properties

/-- How the properties in front of a node end: with a property, or with a blank that the node follows. -/
inductive Described (ts : List Placed) (p : Parsed) : Prop
  | none : p = ⟨[], ts⟩ → Described ts p
  | last (ds : List Tree) (e : Tree) : p.trees = ds ++ [e] → e.kind = .anchor ∨ e.kind = .tag → Whole p.trees →
      atInnerBlank p.rest = false → Described ts p
  | blank : Trimmed p.trees → Ready p.rest → atLineEnd p.rest = false → atColon p.rest = false → Described ts p

variable {ts : List Placed} {p q : Parsed}

theorem Described.trimmed (h : Described ts p) : Trimmed p.trees := by
  cases h with
  | none h => exact h ▸ trimmed_nil
  | last _ _ _ _ h _ => exact h.toTrimmed
  | blank h _ _ _ => exact h

theorem Described.append (hp : Described ts p) (hq : Described p.rest q) :
    Described ts ⟨p.trees ++ q.trees, q.rest⟩ := by
  cases hq with
  | none h =>
    subst h
    rwa [List.append_nil]
  | last ds e hds he h hrest =>
    refine .last (p.trees ++ ds) e ?_ he (hp.trimmed.before h) hrest
    rw [hds, List.append_assoc]
  | blank h hr hend hc => exact .blank (hp.trimmed.append h) hr hend hc

theorem whole_property (hs : Spread ts) (hr : Ready ts) : Whole (property ts).trees := by
  refine (whole_name hs hr).within hr lossless_name ?_
  split <;> decide

theorem described_property (hs : Spread ts) (hp : atProperty ts = true) :
    Described ts (property.andThen (when atInnerBlank token) ts) := by
  have hr : Ready ts := by
    simp only [atProperty, Bool.and_eq_true, decide_eq_true_eq] at hp
    exact ready_of_next hp.1 (by decide) rfl
  have hproperty := whole_property hs hr
  have hrest : Spread (property ts).rest := hs.rest lossless_property
  cases hb : atInnerBlank (property ts).rest with
  | false =>
    have hskip : when atInnerBlank token (property ts).rest = ⟨[], (property ts).rest⟩ := if_neg (by simp [hb])
    rw [Rule.andThen, hskip]
    refine .last [] _ (List.append_nil _) ?_ (by rwa [List.append_nil]) hb
    change (if initial? ts = some '&' then Kind.anchor else .tag) = .anchor ∨
      (if initial? ts = some '&' then Kind.anchor else .tag) = .tag
    split
    · exact .inl rfl
    · exact .inr rfl
  | true =>
    have htake : when atInnerBlank token (property ts).rest = token (property ts).rest := if_pos hb
    rw [Rule.andThen, htake]
    simp only [atInnerBlank, Bool.and_eq_true, Bool.not_eq_true', decide_eq_true_eq] at hb
    obtain ⟨⟨hw, hend⟩, hc⟩ := hb
    have htail : (token (property ts).rest).rest = (property ts).rest.tail := rest_token _
    have hpast := pastBlank_of_blank hw
    refine .blank (hproperty.toTrimmed.append (trimmed_flat flat_token _)) ?_ ?_ ?_
    · rw [htail, ← hpast]
      exact ready_pastBlank hrest hend
    · rw [htail, ← hpast]
      exact atLineEnd_pastBlank hrest hend
    · rwa [htail]

theorem described_properties (hs : Spread ts) : Described ts (properties ts) := by
  rw [properties]
  fun_induction Rule.loop atProperty (property.andThen (when atInnerBlank token)) ts with
  | case1 ts hp p _ q ih =>
    have hrest : Spread (property.andThen (when atInnerBlank token) ts).rest :=
      hs.rest (lossless_property.andThen (lossless_token.when atInnerBlank))
    exact (described_property hs hp).append (ih hrest)
  | case2 ts hp p _ => exact described_property hs hp
  | case3 ts _ => exact .none rfl

end Properties

section Key

variable {ts : List Placed}

theorem atKeyEnd_eq (ts : List Placed) : atKeyEnd ts = (endsLine (pastBlank ts) || atColon (pastBlank ts)) := rfl

theorem atKeyEnd_pastBlank (hs : Spread ts) (h : atKeyEnd ts = false) :
    Ready (pastBlank ts) ∧ atKeyEnd (pastBlank ts) = false := by
  have hend : atLineEnd ts = false := by
    simp only [atKeyEnd, Bool.or_eq_false_iff] at h
    exact h.1
  have hr := ready_pastBlank hs hend
  refine ⟨hr, ?_⟩
  rw [atKeyEnd_eq, hr.pastBlank, ← atKeyEnd_eq, h]

theorem ends_upToKeyEnd (hs : Spread ts) (h : atKeyEnd ts = false) : Ends (upTo atKeyEnd ts).trees := by
  refine (loose_upToKeyEnd hs).ends.resolve_left fun hnil => ?_
  rcases stop_of_trees_upTo hnil with rfl | hstop
  · cases h
  · rw [h] at hstop
    cases hstop

def excess : Rule := when (fun ts => !atKeyEnd ts) ((upTo atKeyEnd).within .error)

theorem key_eq : key = (properties.andThen (keyContent.andThen excess)).within .key := rfl

theorem excess_of_atKeyEnd (h : atKeyEnd ts = true) : excess ts = ⟨[], ts⟩ := if_neg (by simp [h])

theorem excess_of_not (h : atKeyEnd ts = false) : excess ts = (upTo atKeyEnd).within .error ts := if_pos (by simp [h])

theorem lossless_excess : Lossless excess := ((lossless_upTo _).within _).when _

theorem rowed_excess (front : List Tree) {e : Tree} (he : e.kind ∈ [Kind.quotedLiteral, .flowSequence, .flowMapping])
    (hs : Spread ts) :
    Rowed .key (front ++ [e]) (excess ts).trees ∧ ((excess ts).trees = [] ∨ Ends (excess ts).trees) := by
  cases hkey : atKeyEnd ts with
  | true =>
    rw [excess_of_atKeyEnd hkey]
    exact ⟨trimmed_nil.rowed _ _, .inl rfl⟩
  | false =>
    have hrest := loose_upToKeyEnd hs
    have hends := ends_upToKeyEnd hs hkey
    rw [excess_of_not hkey]
    refine ⟨?_, .inr (hends.node .error)⟩
    by_cases hw : next ts = .whitespace
    · obtain ⟨hr, hpast⟩ := atKeyEnd_pastBlank hs hkey
      match ts, hw with
      | w :: us, hw =>
        rw [pastBlank_of_blank hw, List.tail_cons] at hr hpast
        match us with
        | [] => exact absurd rfl hr.nonempty
        | c :: us =>
          have hblank : StartsBlank .key (leavesOf (upTo atKeyEnd (w :: c :: us)).trees) := by
            refine ⟨w.token, c.token, leavesOf (upTo atKeyEnd us).trees, ?_, hw, hr.bare, nofun⟩
            rw [upTo, if_neg (by simp [hkey]), upTo, if_neg (by simp [hpast])]
            rfl
          have hstray : (Kind.key, e.kind, Kind.error) ∈ strayKinds := by
            simp only [List.mem_cons, List.not_mem_nil, or_false] at he
            rcases he with he | he | he <;> rw [he] <;> decide
          exact rowed_stray hstray hblank hrest.toTrimmed hends
    · have hend : atLineEnd ts = false := by
        simp only [atKeyEnd, Bool.or_eq_false_iff] at hkey
        exact hkey.1
      exact (whole_within (ready_of_not_atLineEnd hend hw) (lossless_upTo _) (by decide) (hrest.rowed _ _)
        hends).rowed _ _

theorem rowed_selfEnding {r : Rule} (front : List Tree) (hl : Lossless r) (hs : Spread ts)
    (he : ∃ e, (r ts).trees = [e] ∧ e.kind ∈ [Kind.quotedLiteral, .flowSequence, .flowMapping])
    (hw : Whole (r ts).trees) :
    Rowed .key front (r.andThen excess ts).trees ∧ Ends (r.andThen excess ts).trees := by
  obtain ⟨e, htrees, he⟩ := he
  obtain ⟨hrow, hends⟩ := rowed_excess front he (hs.rest hl)
  rw [← htrees] at hrow
  exact ⟨(hw.rowed _ _).append hrow, ends_append hw.ends hends⟩

theorem kind_flowNode {b : Bracket} (h : next ts = b.opener) :
    ∃ e, (flowNode ts).trees = [e] ∧ e.kind ∈ [Kind.quotedLiteral, .flowSequence, .flowMapping] := by
  rw [flowNode_of_opener h]
  exact ⟨_, rfl, show b.collection ∈ _ by cases b <;> decide⟩

theorem keyContent_cases (ts : List Placed) :
    next ts = .quoted ∧ keyContent ts = quotedLiteral ts ∨
      (∃ b : Bracket, next ts = b.opener ∧ keyContent ts = flowNode ts) ∨
        keyContent ts = when (fun ts => !atKeyEnd ts) ((upTo atKeyEnd).within .literal) ts := by
  rw [keyContent]
  split
  · next h => exact .inl ⟨h, rfl⟩
  · next h => exact .inr (.inl ⟨.square, h, rfl⟩)
  · next h => exact .inr (.inl ⟨.curly, h, rfl⟩)
  · exact .inr (.inr rfl)

theorem rowed_keyContent (front : List Tree) (hs : Spread ts) (hr : Ready ts) (hk : atKeyEnd ts = false) :
    Rowed .key front (keyContent.andThen excess ts).trees ∧ Ends (keyContent.andThen excess ts).trees := by
  rcases keyContent_cases ts with ⟨-, h⟩ | ⟨b, hb, h⟩ | h
  · rw [Rule.andThen, h]
    exact rowed_selfEnding front lossless_quotedLiteral hs ⟨_, rfl, List.mem_cons_self⟩ (whole_quotedLiteral hr)
  · rw [Rule.andThen, h]
    exact rowed_selfEnding front lossless_flowNode hs (kind_flowNode hb) (whole_flowNode hs hr)
  · have hrest : atKeyEnd (upTo atKeyEnd ts).rest = true := by
      rcases stop_rest_upTo atKeyEnd ts with hnil | hstop
      · rw [hnil]
        rfl
      · exact hstop
    have hliteral : Whole ((upTo atKeyEnd).within .literal ts).trees :=
      whole_within hr (lossless_upTo _) (by decide) ((loose_upToKeyEnd hs).rowed _ _) (ends_upToKeyEnd hs hk)
    have hexcess : excess ((upTo atKeyEnd).within .literal ts).rest = ⟨[], (upTo atKeyEnd ts).rest⟩ :=
      excess_of_atKeyEnd hrest
    rw [Rule.andThen, h.trans (if_pos (by simp [hk])), hexcess, List.append_nil]
    exact ⟨hliteral.rowed _ _, hliteral.ends⟩

theorem atKeyEnd_of_ready (hr : Ready ts) (hend : atLineEnd ts = false) (hc : next ts ≠ .colon) :
    atKeyEnd ts = false := by
  rw [atKeyEnd, hend, hr.pastBlank, Bool.false_or, atColon, atIndicator, decide_eq_false hc, Bool.false_and]

theorem atKeyEnd_of_selfEnding (h : next ts = .quoted ∨ ∃ b : Bracket, next ts = b.opener) : atKeyEnd ts = false := by
  cases ts with
  | nil =>
    rcases h with h | ⟨b, h⟩
    · cases h
    · cases b <;> cases h
  | cons t ts =>
    have hk : t.kind = .quoted ∨ t.kind = .lbracket ∨ t.kind = .lbrace := by
      rcases h with h | ⟨b, h⟩
      · exact .inl h
      · cases b
        · exact .inr (.inl h)
        · exact .inr (.inr h)
    rcases hk with hk | hk | hk <;> simp [atKeyEnd_eq, Grammar.pastBlank, endsLine, atColon, atIndicator, hk]

theorem keyContent_of_atKeyEnd (h : atKeyEnd ts = true) : keyContent ts = ⟨[], ts⟩ := by
  have hnot (hself : next ts = .quoted ∨ ∃ b : Bracket, next ts = b.opener) : False := by
    rw [atKeyEnd_of_selfEnding hself] at h
    cases h
  rcases keyContent_cases ts with ⟨hq, -⟩ | ⟨b, hb, -⟩ | heq
  · exact (hnot (.inl hq)).elim
  · exact (hnot (.inr ⟨b, hb⟩)).elim
  · exact heq.trans (if_neg (by simp [h]))

theorem atKeyEnd_of_blankColon (hw : next ts = .whitespace) (hc : atColon ts.tail = true) : atKeyEnd ts = true := by
  rw [atKeyEnd_eq, pastBlank_of_blank hw, hc, Bool.or_true]

/-- Behind properties that do not end the line, the node starts, or a blank and a colon follow the last property. -/
theorem Described.cases_rest {p : Parsed} (h : Described ts p) (hr : Ready ts) (hend : atLineEnd p.rest = false) :
    Ready p.rest ∨ ∃ ds e, p.trees = ds ++ [e] ∧ (e.kind = .anchor ∨ e.kind = .tag) ∧ next p.rest = .whitespace ∧
      atColon p.rest.tail = true := by
  cases h with
  | none h => exact .inl (h ▸ hr)
  | last ds e hds he _ hb =>
    by_cases hw : next p.rest = .whitespace
    · exact .inr ⟨ds, e, hds, he, hw, by simpa [atInnerBlank, hw, hend] using hb⟩
    · exact .inl (ready_of_not_atLineEnd hend hw)
  | blank _ h _ _ => exact .inl h

theorem Described.whole {p : Parsed} (h : Described ts p) (hne : p.rest ≠ ts) (hend : atKeyEnd p.rest = true) :
    Whole p.trees := by
  cases h with
  | none h => exact absurd (h ▸ rfl) hne
  | last _ _ _ _ h _ => exact h
  | blank _ hr hline hc =>
    rw [atKeyEnd, hline, hr.pastBlank, hc] at hend
    cases hend

theorem whole_key (hs : Spread ts) (hr : Ready ts) (hend : atLineEnd ts = false) (hc : next ts ≠ .colon) :
    Whole (key ts).trees := by
  have hl := lossless_properties.andThen (lossless_keyContent.andThen lossless_excess)
  have hdescribed := described_properties hs
  have hrest : Spread (properties ts).rest := hs.rest lossless_properties
  rw [key_eq]
  cases hk : atKeyEnd (properties ts).rest with
  | true =>
    have hne : (properties ts).rest ≠ ts := fun heq => by
      rw [heq, atKeyEnd_of_ready hr hend hc] at hk
      cases hk
    have hwhole := hdescribed.whole hne hk
    have hnothing : keyContent.andThen excess (properties ts).rest = ⟨[], (properties ts).rest⟩ := by
      rw [Rule.andThen, keyContent_of_atKeyEnd hk, excess_of_atKeyEnd hk]
      rfl
    refine Whole.within ?_ hr hl (by decide)
    rwa [Rule.andThen, hnothing, List.append_nil]
  | false =>
    have hready : Ready (properties ts).rest := by
      have hline : atLineEnd (properties ts).rest = false := by
        simp only [atKeyEnd, Bool.or_eq_false_iff] at hk
        exact hk.1
      rcases hdescribed.cases_rest hr hline with h | ⟨-, -, -, -, hw, hcolon⟩
      · exact h
      · rw [atKeyEnd_of_blankColon hw hcolon] at hk
        cases hk
    obtain ⟨hrow, hends⟩ := rowed_keyContent ([] ++ (properties ts).trees) hrest hready hk
    exact whole_within hr hl (by decide) ((hdescribed.trimmed.rowed _ _).append hrow) (hends.behind _)

end Key

end LosslessYaml.Grammar
