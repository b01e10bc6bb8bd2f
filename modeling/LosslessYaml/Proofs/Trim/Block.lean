import LosslessYaml.Proofs.Trim.Inline

namespace LosslessYaml

namespace Grammar

open Rule Trim LosslessYaml.Tree

section Lookahead

variable {t : Placed} {ts : List Placed}

def passesBy : Kind → Bool
  | .newline | .eof | .comment | .lbracket | .lbrace | .rbracket | .rbrace => false
  | _ => true

theorem colonAhead_of_tail {n : Nat} (ht : passesBy t.kind = true) (h : colonAhead n ts = true) :
    colonAhead n (t :: ts) = true := by
  rw [colonAhead]
  cases hk : t.kind <;> first | exact h | simp [passesBy, hk, h] at ht ⊢

theorem colonAhead_of_token {n : Nat} (ht : passesBy (next ts) = true) (h : colonAhead n (token ts).rest = true) :
    colonAhead n ts = true := by
  cases ts with
  | nil => exact h
  | cons t ts => exact colonAhead_of_tail ht h

theorem passesBy_of_continuesName (h : continuesName ts = true) : passesBy (next ts) = true := by
  cases hk : next ts <;> first | rfl | simp [continuesName, hk] at h

theorem colonAhead_of_name {n : Nat} (ht : passesBy (next ts) = true) (h : colonAhead n (name ts).rest = true) :
    colonAhead n ts = true := by
  refine colonAhead_of_token ht ?_
  change colonAhead n (upTo (fun ts => !continuesName ts) (token ts).rest).rest = true at h
  generalize (token ts).rest = us at h ⊢
  induction us with
  | nil => exact h
  | cons u us ih =>
    rw [upTo] at h
    split at h
    · exact h
    · next hu =>
      have hname : continuesName (u :: us) = true := by simpa using hu
      exact colonAhead_of_tail (passesBy_of_continuesName hname) (ih h)

theorem colonAhead_of_property {n : Nat} (hp : atProperty ts = true)
    (h : colonAhead n (property.andThen (when atInnerBlank token) ts).rest = true) : colonAhead n ts = true := by
  have hname : passesBy (next ts) = true := by
    simp only [atProperty, Bool.and_eq_true, decide_eq_true_eq] at hp
    rw [hp.1]
    rfl
  refine colonAhead_of_name hname ?_
  change colonAhead n (when atInnerBlank token (name ts).rest).rest = true at h
  rw [Rule.when, Rule.branch] at h
  split at h
  · next hb =>
    refine colonAhead_of_token ?_ h
    simp only [atInnerBlank, Bool.and_eq_true, decide_eq_true_eq] at hb
    rw [hb.1.1]
    rfl
  · exact h

theorem colonAhead_of_properties {n : Nat} (h : colonAhead n (properties ts).rest = true) :
    colonAhead n ts = true := by
  rw [properties] at h
  fun_induction Rule.loop atProperty (property.andThen (when atInnerBlank token)) ts with
  | case1 ts hp p _ q ih => exact colonAhead_of_property hp (ih h)
  | case2 ts hp p _ => exact colonAhead_of_property hp h
  | case3 ts _ => exact h

theorem atEntry_of_properties (hp : atProperty ts = true) (hw : next (properties ts).rest = .whitespace)
    (hc : atColon (properties ts).rest.tail = true) : atEntry ts = true := by
  have hcolon : colonAhead 0 (properties ts).rest = true := by
    match hrest : (properties ts).rest with
    | [] => simp [hrest] at hw
    | [w] => simp [hrest, atColon, atIndicator] at hc
    | w :: c :: us =>
      rw [hrest] at hw hc
      have hkind : c.kind = .colon := next_of_atIndicator hc
      have hgap : atGap us = true := by
        simp only [atColon, atIndicator, List.tail_cons, Bool.and_eq_true] at hc
        exact hc.2
      refine colonAhead_of_tail (by rw [show w.kind = .whitespace from hw]; rfl) ?_
      simp [colonAhead, hkind, hgap]
  have htext : next ts = .text := by
    simp only [atProperty, Bool.and_eq_true, decide_eq_true_eq] at hp
    exact hp.1
  simp [atEntry, atMarker, atDash, atBlockLiteral, atIndicator, htext, colonAhead_of_properties hcolon]

end Lookahead

theorem whole_entries {r : Rule} {test : List Placed → Bool} {k : Kind} {ts : List Placed} (hl : Lossless r)
    (hk : k ∉ literalParts) (col : Nat) (hs : Spread ts) (hr : Ready ts) (hfirst : Whole (r ts).trees)
    (hnext : ∀ us, Spread us → Ready us → test us = true → Whole (r us).trees) :
    Whole ((r.andThen (loop (entryFollows col test) (trivia.andThen r))).within k ts).trees := by
  have hpass := lossless_trivia.andThen hl
  have hentries : Loose (loop (entryFollows col test) (trivia.andThen r) (r ts).rest).trees := by
    refine loose_loop hpass (fun us hus hf => whole_afterTrivia ?_) (hs.rest hl)
    simp only [entryFollows, Bool.and_eq_true] at hf
    have hne : pastTrivia us ≠ [] := fun hnil => by simp [hnil, startsLine] at hf
    exact hnext _ hus.pastTrivia (ready_pastTrivia hne) hf.2
  have hbody : Whole (r.andThen (loop (entryFollows col test) (trivia.andThen r)) ts).trees := hfirst.append hentries
  exact hbody.within hr (hl.andThen (hpass.loop _)) hk

section Block

variable {node : Nat → Rule} (hl : ∀ min, Lossless (node min))
    (hn : ∀ min ts, Spread ts → Ready ts → Whole (node min ts).trees) {ts : List Placed}
include hn

theorem loose_deeper (col : Nat) (hs : Spread ts) : Loose (deeper node col ts).trees := by
  refine trees_when loose_nil fun h => (whole_afterTrivia ?_).loose
  simp only [Bool.and_eq_true] at h
  exact hn _ _ hs.pastTrivia (ready_pastTrivia (ne_nil_of_contentAhead h.1))

include hl

theorem loose_itemValue (col : Nat) (hs : Spread ts) : Loose (itemValue node col ts).trees := by
  refine trees_branch (fun _ => loose_deeper hn col hs) fun hend => (whole_afterBlank ?_).loose
  have hpast : Spread (pastBlank ts) := rest_blank ts ▸ hs.rest lossless_blank
  exact (hn _ _ hpast (ready_pastBlank hs hend)).append (loose_restOfLine (hpast.rest (hl _)))

theorem whole_marked {k : Kind} (hk : k ∉ literalParts) (col : Nat) (hs : Spread ts) (hr : Ready ts) :
    Whole ((token.andThen (itemValue node col)).within k ts).trees :=
  (whole_token_then hr (loose_itemValue hl hn col (hs.rest lossless_token))).within hr
    (lossless_token.andThen (lossless_itemValue hl col)) hk

theorem whole_sequence (col : Nat) (hs : Spread ts) (hr : Ready ts) : Whole (sequence node col ts).trees := by
  have hitem (us : List Placed) (hus : Spread us) (hru : Ready us) : Whole (item node col us).trees :=
    whole_marked hl hn (by decide) col hus hru
  exact whole_entries (lossless_item hl col) (by decide) col hs hr (hitem ts hs hr) fun us hus hru _ => hitem us hus hru

theorem loose_pairValueBelow (col : Nat) (hs : Spread ts) : Loose (pairValueBelow node col ts).trees := by
  refine trees_branch (fun h => (whole_afterTrivia ?_).loose) fun _ => loose_deeper hn col hs
  simp only [atFlushSequence, Bool.and_eq_true] at h
  exact whole_sequence hl hn col hs.pastTrivia (ready_pastTrivia (ne_nil_of_atDash h.2))

theorem rowed_describedValue (front : List Tree) (col : Nat) (hs : Spread ts) (hr : Ready ts)
    (hend : atLineEnd ts = false) {p : Parsed}
    (hp : p = properties.andThen
      (branch atLineEnd (pairValueBelow node col) ((inlineValue (col + 1)).andThen restOfLine)) ts) :
    Rowed .pair front p.trees ∧ Ends p.trees := by
  have hdescribed := described_properties hs
  have hrest : Spread (properties ts).rest := hs.rest lossless_properties
  have hline : Loose (restOfLine (inlineValue (col + 1) (properties ts).rest).rest).trees :=
    loose_restOfLine (hrest.rest (lossless_inlineValue _))
  rw [hp, Rule.andThen, Rule.branch]
  split
  · next hlast =>
    have hne : (properties ts).rest ≠ ts := fun heq => by
      rw [heq, hend] at hlast
      cases hlast
    have hwhole := (hdescribed.whole hne (by rw [atKeyEnd, hlast, Bool.true_or])).append
      (loose_pairValueBelow hl hn col hrest)
    exact ⟨hwhole.rowed _ _, hwhole.ends⟩
  · next hgo =>
    rcases hdescribed.cases_rest hr (Bool.not_eq_true _ ▸ hgo) with hready | ⟨ds, e, hds, he, hw, hc⟩
    · have hwhole := hdescribed.trimmed.before ((whole_inlineValue (col + 1) hrest hready).append hline)
      exact ⟨hwhole.rowed _ _, hwhole.ends⟩
    · obtain ⟨hstray, hends⟩ := stray_plainScalar (col + 1) (front ++ ds) he hrest hw hc
      rw [← inlineValue_of_blank (col + 1) hw] at hstray hends
      rw [List.append_assoc, ← hds] at hstray
      exact ⟨(hdescribed.trimmed.rowed _ _).append (hstray.append (hline.rowed _ _)),
        (ends_append hends hline.ends).behind _⟩

theorem rowed_pairValue (front : List Tree) (col : Nat) (hs : Spread ts) :
    Rowed .pair front (pairValue node col ts).trees ∧
      ((pairValue node col ts).trees = [] ∨ Ends (pairValue node col ts).trees) := by
  rw [pairValue, Rule.branch]
  split
  · have hbelow := loose_pairValueBelow hl hn col hs
    exact ⟨hbelow.rowed _ _, hbelow.ends⟩
  · next hgo =>
    have hend : atLineEnd ts = false := Bool.not_eq_true _ ▸ hgo
    have hblank := (trimmed_blank ts).rowed .pair front
    have hpast : Spread (blank ts).rest := hs.rest lossless_blank
    have hready : Ready (blank ts).rest := rest_blank ts ▸ ready_pastBlank hs hend
    have hstop : atLineEnd (blank ts).rest = false := rest_blank ts ▸ atLineEnd_pastBlank hs hend
    obtain ⟨hrow, hends⟩ := rowed_describedValue hl hn (front ++ (blank ts).trees) col hpast hready hstop rfl
    exact ⟨hblank.append hrow, .inr (hends.behind _)⟩

theorem rowed_pairTail (front : List Tree) (col : Nat) (hs : Spread ts) (h : next (pastBlank ts) = .colon) :
    Rowed .pair front (pairTail node col ts).trees ∧ Ends (pairTail node col ts).trees := by
  obtain ⟨blanks, colon, after, -, -, hpast, htrees⟩ := exists_pairTail node col h
  have hafter : Spread (colon :: after) := hpast ▸ rest_blank ts ▸ hs.rest lossless_blank
  have hkind : colon.kind = .colon := by rwa [hpast] at h
  have hmark : Whole (blanks.map Tree.leaf ++ [.leaf colon.token]) := by
    refine (trimmed_leaves fun t ht => ?_).before (whole_leaf (by rw [show colon.token.kind = .colon from hkind]; rfl))
    obtain ⟨b, -, rfl⟩ := List.mem_map.1 ht
    rfl
  obtain ⟨hrow, hends⟩ := rowed_pairValue hl hn (front ++ (blanks.map Tree.leaf ++ [.leaf colon.token])) col hafter.tail
  rw [htrees, List.append_cons]
  exact ⟨(hmark.rowed _ _).append hrow, ends_append hmark.ends hends⟩

theorem rowed_explicitTail (front : List Tree) (col : Nat) (hs : Spread ts) {p : Parsed}
    (hp : p = when (entryFollows col atColon) (trivia.andThen (pairTail node col)) ts) :
    Rowed .pair front p.trees ∧ (p.trees = [] ∨ Ends p.trees) := by
  rw [hp]
  refine trees_when (F := fun cs => Rowed .pair front cs ∧ (cs = [] ∨ Ends cs)) ⟨trimmed_nil.rowed _ _, .inl rfl⟩
    fun hf => ?_
  simp only [entryFollows, Bool.and_eq_true] at hf
  have hnext := next_of_atIndicator hf.2
  have hpast : next (pastBlank (pastTrivia ts)) = .colon := by
    rw [(ready_of_next hnext (by decide) rfl).pastBlank, hnext]
  have htrivia : Trimmed (trivia ts).trees := trimmed_flat (flat_upTo _) ts
  obtain ⟨hrow, hends⟩ := rowed_pairTail hl hn (front ++ (trivia ts).trees) col hs.pastTrivia hpast
  rw [← rest_trivia] at hrow hends
  exact ⟨(htrivia.rowed _ _).append hrow, .inr (hends.behind _)⟩

theorem rowed_implicitPair (col : Nat) (hs : Spread ts) (hr : Ready ts) (h : colonAhead 0 ts = true) :
    Rowed .pair [] (implicitKey.andThen (pairTail node col) ts).trees ∧
      Ends (implicitKey.andThen (pairTail node col) ts).trees := by
  rw [Rule.andThen]
  by_cases hc : next ts = .colon
  · have hnone : implicitKey ts = ⟨[], ts⟩ := by simp [implicitKey, Rule.when, Rule.branch, hc, skip]
    rw [hnone]
    exact rowed_pairTail hl hn [] col hs (by rwa [hr.pastBlank])
  · have hsome : implicitKey ts = key ts := if_pos (decide_eq_true hc)
    have hkey := whole_key hs hr (atLineEnd_of_colonAhead h) hc
    obtain ⟨hrow, hends⟩ := rowed_pairTail hl hn ([] ++ (key ts).trees) col (hs.rest lossless_key)
      (next_of_atIndicator (atColon_rest_key hs h))
    rw [hsome]
    exact ⟨(hkey.rowed _ _).append hrow, hends.behind _⟩

theorem whole_pair (col : Nat) (hs : Spread ts) (hr : Ready ts) (he : atEntry ts = true) :
    Whole (pair node col ts).trees := by
  have htail := lossless_pairTail hl col
  have hexplicit :=
    (lossless_explicitKey hl col).andThen ((lossless_trivia.andThen htail).when (entryFollows col atColon))
  have himplicit : Lossless (implicitKey.andThen (pairTail node col)) := (lossless_key.when _).andThen htail
  cases hq : atQuestion ts with
  | true =>
    have hkey : Whole (explicitKey node col ts).trees := whole_marked hl hn (by decide) col hs hr
    obtain ⟨hrow, hends⟩ := rowed_explicitTail hl hn ([] ++ (explicitKey node col ts).trees) col
      (hs.rest (lossless_explicitKey hl col)) rfl
    have hpair := whole_within hr hexplicit (k := .pair) (by decide) ((hkey.rowed _ _).append hrow)
      (ends_append hkey.ends hends)
    rwa [pair, Rule.within, Rule.branch, if_pos hq]
  | false =>
    obtain ⟨hrow, hends⟩ := rowed_implicitPair hl hn col hs hr (colonAhead_of_atEntry he hq)
    have hpair := whole_within hr himplicit (by decide) hrow hends
    rwa [pair, Rule.within, Rule.branch, if_neg (by simp [hq])]

theorem whole_mapping (col : Nat) (hs : Spread ts) (hr : Ready ts) (he : atEntry ts = true) :
    Whole (mapping node col ts).trees :=
  whole_entries (lossless_pair hl col) (by decide) col hs hr (whole_pair hl hn col hs hr he)
    fun _ => whole_pair hl hn col

theorem whole_bareNode (min : Nat) (hs : Spread ts) (hr : Ready ts) : Whole (bareNode node min ts).trees := by
  rw [bareNode]
  split
  · exact whole_sequence hl hn _ hs hr
  · split
    · exact whole_blockLiteral min hs hr
    · split
      · next he => exact whole_mapping hl hn _ hs hr he
      · exact whole_inlineValue min hs hr

theorem whole_blockNodeOf (min : Nat) (hs : Spread ts) (hr : Ready ts) : Whole (blockNodeOf node min ts).trees := by
  refine trees_branch (fun h => ?_) fun _ => whole_bareNode hl hn min hs hr
  simp only [Bool.and_eq_true, Bool.not_eq_true'] at h
  have hdescribed := described_properties hs
  have hrest : Spread (properties ts).rest := hs.rest lossless_properties
  rw [Rule.andThen, Rule.branch]
  split
  · next hlast =>
    have hne : (properties ts).rest ≠ ts := fun heq => by
      have htakes := takes_properties h.1
      rw [Takes, heq] at htakes
      exact absurd htakes (Nat.lt_irrefl _)
    refine (hdescribed.whole hne (by rw [atKeyEnd, hlast, Bool.true_or])).append
      (trees_when loose_nil fun hc => (whole_afterTrivia ?_).loose)
    simp only [Bool.and_eq_true] at hc
    exact hn _ _ hrest.pastTrivia (ready_pastTrivia (ne_nil_of_contentAhead hc.1))
  · next hgo =>
    rcases hdescribed.cases_rest hr (Bool.not_eq_true _ ▸ hgo) with hready | ⟨-, -, -, -, hw, hc⟩
    · exact hdescribed.trimmed.before (whole_bareNode hl hn min hrest hready)
    · -- the line is an entry, and its properties belong to the key
      rw [atEntry_of_properties h.1 hw hc] at h
      cases h.2

end Block

variable {ts : List Placed}

theorem whole_blockNode (min : Nat) (hs : Spread ts) (hr : Ready ts) : Whole (blockNode min ts).trees :=
  blockNode_induct (P := fun _ ts p => Spread ts → Ready ts → Whole p.trees)
    lossless_plainScalar (fun min _ => whole_plainScalar min) (fun _ hl hn min _ => whole_blockNodeOf hl hn min)
    min ts hs hr

def opening : Rule := when (fun ts => atMarker ts && next ts = .directiveEnd) token

def closing : Rule :=
  when (fun ts => atMarker (pastTrivia ts) && next (pastTrivia ts) = .documentEnd) (trivia.andThen token)

def documentBody : Rule := opening.andThen ((loop contentAhead (trivia.andThen (blockNode 0))).andThen closing)

theorem document_eq : document = documentBody.within .document := rfl

theorem loose_closing (ts : List Placed) : Loose (closing ts).trees := by
  refine trees_when loose_nil fun h => (whole_afterTrivia (whole_token ?_)).loose
  simp only [Bool.and_eq_true, decide_eq_true_eq] at h
  exact ready_of_next h.2 (by decide) rfl

theorem trees_ne_nil_of_takes {r : Rule} (hl : Lossless r) (h : Takes r ts) : (r ts).trees ≠ [] := by
  intro hnil
  obtain ⟨us, hus, hleaves⟩ := hl ts
  rw [hnil] at hleaves
  obtain rfl := List.map_eq_nil_iff.1 hleaves.symm
  rw [Takes, ← List.nil_append (r ts).rest, ← hus] at h
  exact absurd h (Nat.lt_irrefl _)

theorem whole_document (hs : Spread ts) (hr : Ready ts) : Whole (document ts).trees := by
  have hnode := lossless_trivia.andThen (lossless_blockNode 0)
  have hlopening : Lossless opening := lossless_token.when _
  have hlclosing : Lossless closing := (lossless_trivia.andThen lossless_token).when _
  have hlbody : Lossless documentBody := hlopening.andThen ((hnode.loop contentAhead).andThen hlclosing)
  have hopening : Loose (opening ts).trees := trees_when loose_nil fun _ => (whole_token hr).loose
  have hnodes : Loose (loop contentAhead (trivia.andThen (blockNode 0)) (opening ts).rest).trees :=
    loose_loop hnode (fun us hus hc => whole_afterTrivia
      (whole_blockNode 0 hus.pastTrivia (ready_pastTrivia (ne_nil_of_contentAhead hc)))) (hs.rest hlopening)
  have hbody : Loose (documentBody ts).trees := hopening.append (hnodes.append (loose_closing _))
  have htakes : Takes document ts := takes_document hr.nonempty hr.bare
  rw [document_eq] at htakes ⊢
  exact whole_within hr hlbody (by decide) (hbody.rowed _ _)
    (hbody.ends.resolve_left (trees_ne_nil_of_takes hlbody htakes))

theorem trimmed_documents (hs : Spread ts) : Trimmed (documents ts).trees := by
  have htrivia (us : List Placed) : Trimmed (trivia us).trees := trimmed_flat (flat_upTo _) us
  have hready (us : List Placed) : pastTrivia us = [] ∨ Ready (pastTrivia us) :=
    (Decidable.em (pastTrivia us = [])).imp_right ready_pastTrivia
  refine (htrivia ts).append ?_
  refine trees_loop_along (A := fun _ us => Spread us ∧ (us = [] ∨ Ready us)) (F := fun _ => Trimmed)
    (fun _ => trimmed_nil) (fun _ _ _ => Trimmed.append) (fun _ us hus => ?_) (fun _ us hus ht => ?_) [] _ ?_
  · refine ⟨hus.1.rest (lossless_document.andThen lossless_trivia), ?_⟩
    rw [Rule.andThen, rest_trivia]
    exact hready _
  · have hr := hus.2.resolve_left (by simpa using ht)
    exact (whole_document hus.1 hr).toTrimmed.append (htrivia _)
  · rw [rest_trivia]
    exact ⟨hs.pastTrivia, hready ts⟩

theorem neat_parse (s : List Char) : (parse s).Every (fun _ => NeatPart) [] := by
  have hspread : Spread (Placed.place (Token.scan s)) := (Placed.remain_place s).spread
  have hdocuments := trimmed_documents hspread
  exact ⟨⟨row_of_tidy hdocuments.tidy, fun h => absurd rfl h, fun h => absurd List.mem_cons_self h⟩, hdocuments.parts _⟩

end Grammar

end LosslessYaml
