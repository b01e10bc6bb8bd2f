import LosslessYaml.Proofs.Flow.Nesting
import LosslessYaml.Proofs.Layout.Scalar
import LosslessYaml.Proofs.Text.Lines
import LosslessYaml.Proofs.Tree.Address

namespace LosslessYaml

namespace Placed

/-- The tokens of the text `s` that are left behind the text `u`. -/
def Remain (s u : List Char) (ts : List Placed) : Prop :=
  ∃ us, place (Token.scan s) = us ++ ts ∧ u = Token.textOf (us.map token)

variable {s u : List Char} {ts : List Placed}

theorem remain_place (s : List Char) : Remain s [] (place (Token.scan s)) := ⟨[], rfl, rfl⟩

theorem Remain.rest {r : Rule} (hl : Rule.Lossless r) (h : Remain s u ts) :
    Remain s (u ++ Tree.forestText (r ts).trees) (r ts).rest := by
  obtain ⟨us, hus, rfl⟩ := h
  obtain ⟨vs, hvs, hleaves⟩ := hl ts
  refine ⟨us ++ vs, ?_, ?_⟩
  · rw [hus, List.append_assoc, ← hvs]
  · rw [List.map_append, Token.textOf_append, Tree.forestText, hleaves]

theorem Remain.scan (h : Remain s u ts) :
    ∃ us, Token.scan s = us ++ ts.map token ∧ u = Token.textOf us := by
  obtain ⟨us, hus, hu⟩ := h
  refine ⟨us.map token, ?_, hu⟩
  rw [← List.map_append, ← hus, map_token_place]

theorem Remain.spread (h : Remain s u ts) : Grammar.Spread ts := by
  obtain ⟨us, hus, -⟩ := h.scan
  have hchain := Token.isChain_scan s
  rw [hus] at hchain
  exact hchain.right_of_append

theorem Remain.lexed (h : Remain s u ts) : Token.Lexed (ts.map token) := by
  obtain ⟨us, hus, -⟩ := h.scan
  have hlexed : Token.Lexed (Token.scan s) := Token.lexed_scanFrom false s
  rw [hus] at hlexed
  exact Token.lexed_of_append hlexed

end Placed

namespace Grammar

open Rule LosslessYaml.Tree
open Placed (Remain)
open Token (EndsFilled)

def FlowOrigin (s : List Char) (b : Bracket) (u : List Char) (cs : List Tree) : Prop :=
  ∃ ts, Remain s u ts ∧ next ts = b.opener ∧ (flowNode ts).trees = [.node b.collection cs]

def ContentOrigin (u : List Char) (cs : List Tree) : Prop :=
  cs = [] ∨ Text.AtLineStart u ∧ ∃ t ∈ leavesOf cs, isLineGap t.kind = false

def PairOrigin (s u : List Char) (t : Tree) : Prop :=
  t.isNode = true → ∃ node col ts, Remain s u ts ∧ atEntry ts = true ∧ (pair node col ts).trees = [t]

/-- Where a part of the tree of `s` comes from that stands behind the text `u`. -/
def Origin (s u : List Char) : Tree → Prop
  | .node .flowSequence cs => FlowOrigin s .square u cs
  | .node .flowMapping cs => FlowOrigin s .curly u cs
  | .node .blockLiteralContent cs => ContentOrigin u cs
  | .node .blockMapping cs => Each (PairOrigin s) u cs
  | _ => True

theorem origin_node (s u : List Char) {k : Kind}
    (hk : k ∉ [Kind.flowSequence, .flowMapping, .blockLiteralContent, .blockMapping]) (cs : List Tree) :
    Origin s u (.node k cs) := by
  cases k <;> first | exact trivial | exact absurd hk (by decide)

def Traced (s : List Char) (r : Rule) (ts : List Placed) : Prop :=
  ∀ u, Remain s u ts → EveryOf (Origin s) u (r ts).trees

section Rules

variable {s : List Char} {r r' : Rule} {ts : List Placed} {test : List Placed → Bool}

theorem Traced.of_flat (hr : Flat r) (ts : List Placed) : Traced s r ts :=
  fun u _ => everyOf_leaves (fun _ _ => trivial) (hr ts) u

theorem traced_skip (s : List Char) (ts : List Placed) : Traced s skip ts := fun _ _ => trivial

theorem Traced.andThen (hl : Lossless r) (hr : Traced s r ts) (hr' : Traced s r' (r ts).rest) :
    Traced s (r.andThen r') ts :=
  fun u h => everyOf_append.2 ⟨hr u h, hr' _ (h.rest hl)⟩

theorem Traced.node {k : Kind} (hr : Traced s r ts)
    (hk : ∀ u, Remain s u ts → Origin s u (.node k (r ts).trees)) : Traced s (r.within k) ts :=
  fun u h => ⟨⟨hk u h, hr u h⟩, trivial⟩

theorem Traced.within {k : Kind} (hr : Traced s r ts)
    (hk : k ∉ [Kind.flowSequence, .flowMapping, .blockLiteralContent, .blockMapping]) : Traced s (r.within k) ts :=
  hr.node fun u _ => origin_node s u hk _

theorem Traced.branch (hr : test ts = true → Traced s r ts) (hr' : test ts = false → Traced s r' ts) :
    Traced s (branch test r r') ts :=
  fun u h => trees_branch (fun ht => hr ht u h) fun ht => hr' ht u h

theorem Traced.when (hr : test ts = true → Traced s r ts) : Traced s (when test r) ts :=
  Traced.branch hr fun _ => traced_skip s ts

theorem Traced.loop (hl : Lossless r) (hr : ∀ ts, test ts = true → Traced s r ts) (ts : List Placed) :
    Traced s (loop test r) ts :=
  fun u => trees_loop_along (A := Remain s) (F := EveryOf (Origin s)) (fun _ => trivial)
    (fun _ _ _ hc hd => everyOf_append.2 ⟨hc, hd⟩) (fun _ _ h => h.rest hl) (fun u ts h ht => hr ts ht u h) u ts

theorem Traced.afterTrivia (hr : Traced s r (pastTrivia ts)) : Traced s (trivia.andThen r) ts :=
  (Traced.of_flat (flat_upTo _) ts).andThen lossless_trivia (rest_trivia ts ▸ hr)

end Rules

section Flow

variable {s : List Char} {node : Rule} (hl : Lossless node) (hn : ∀ ts, Traced s node ts)
include hn

theorem traced_flowPairTail (colon : Option Nat) (ts : List Placed) : Traced s (flowPairTail node colon) ts := by
  cases colon with
  | none => exact traced_skip s ts
  | some n =>
    exact (Traced.of_flat (flat_tokens n) ts).andThen (lossless_tokens n) (Traced.when fun _ => (hn _).afterTrivia)

include hl

theorem traced_flowEntry (b : Bracket) (ts : List Placed) : Traced s (flowEntry node b) ts := by
  intro u h
  rw [flowEntry]
  split
  · exact (traced_flowPairTail hn _ ts).within (by decide) u h
  · dsimp only
    split
    · exact hn ts u h
    · -- a key node around what the rule for nodes read, and the rest of the pair behind it
      have htail := traced_flowPairTail hn (colonLength? (endsItself (next ts)) (node ts).rest) _ _ (h.rest hl)
      refine ⟨⟨trivial, ⟨trivial, hn ts u h⟩, ?_⟩, trivial⟩
      rw [text_node]
      exact htail

theorem traced_flowBody (b : Bracket) (ts : List Placed) : Traced s (flowBody node b) ts := by
  have hentry := lossless_token.branch (lossless_flowEntry hl b) (fun ts => next ts = .comma)
  refine (Traced.loop (lossless_trivia.andThen hentry) (fun ts _ => Traced.afterTrivia ?_) ts).andThen
    ((lossless_trivia.andThen hentry).loop _) (Traced.when fun _ => (Traced.of_flat flat_token _).afterTrivia)
  exact Traced.branch (fun _ => Traced.of_flat flat_token _) fun _ => traced_flowEntry hl hn b _

theorem traced_flowCollectionOf {b : Bracket} {ts : List Placed}
    (ho : ∀ u, Remain s u ts → ∀ cs, (flowCollectionOf node b ts).trees = [.node b.collection cs] →
      FlowOrigin s b u cs) : Traced s (flowCollectionOf node b) ts := by
  have hbody := (Traced.of_flat flat_token ts).andThen lossless_token (traced_flowBody hl hn b _)
  refine hbody.node fun u h => ?_
  have horigin := ho u h _ rfl
  cases b <;> exact horigin

end Flow

theorem traced_flowNode (s : List Char) (ts : List Placed) : Traced s flowNode ts := by
  induction h : ts.length using Nat.strongRecOn generalizing ts with
  | ind n ih =>
    have heq := flowNode_eq skip ts
    have hl : Lossless (below ts.length flowNode skip) :=
      lossless_below (fun us _ => lossless_flowNode us) lossless_skip
    have hn (us : List Placed) : Traced s (below ts.length flowNode skip) us := by
      intro u hu
      rw [below]
      split
      · exact ih us.length (by omega) us rfl u hu
      · exact trivial
    have hcollection {b : Bracket} (hb : next ts = b.opener)
        (hf : flowNode ts = flowCollectionOf (below ts.length flowNode skip) b ts) : Traced s flowNode ts := by
      intro u hu
      rw [hf]
      exact traced_flowCollectionOf hl hn (fun u hu cs hcs => ⟨ts, hu, hb, hf ▸ hcs⟩) u hu
    rw [flowNodeOf] at heq
    split at heq
    · next hb => exact hcollection (b := .square) hb heq
    · next hb => exact hcollection (b := .curly) hb heq
    · intro u hu
      rw [heq]
      exact (Traced.of_flat flat_token ts).within (by decide) u hu
    · intro u hu
      rw [heq]
      exact (Traced.of_flat (flat_token.andThen (flat_upTo _)) ts).within (by decide) u hu

section Content

variable {ts : List Placed}

theorem isLineGap_of_pastBlank {t : Placed} {us : List Placed} (hs : Spread ts) (h : pastBlank (lineOf ts) = t :: us) :
    t ∈ lineOf ts ∧ isLineGap t.kind = false := by
  have hline : Spread (lineOf ts) := by
    rw [Spread, lineOf_append_afterLine ts, List.map_append] at hs
    exact hs.left_of_append
  have hmem : t ∈ lineOf ts ∧ t.kind ≠ .whitespace := by
    cases hl : lineOf ts with
    | nil =>
      rw [hl] at h
      cases h
    | cons x xs =>
      rw [hl, pastBlank] at h
      split at h
      · next hx =>
        subst h
        rw [hl] at hline
        exact ⟨List.mem_cons_of_mem _ List.mem_cons_self, (List.isChain_cons_cons.1 hline).1 hx⟩
      · next hx =>
        obtain ⟨rfl, -⟩ := List.cons.inj h
        exact ⟨List.mem_cons_self, hx⟩
  have hblank := hmem.2
  have hbreak := kind_of_mem_lineOf hmem.1
  refine ⟨hmem.1, ?_⟩
  cases hk : t.kind <;> first | rfl | simp [hk] at hblank hbreak

theorem endsFilled_of_contentLength? {min n : Nat} {indent : Option Nat} (hs : Spread ts)
    (h : contentLength? min indent ts = some n) : EndsFilled ((ts.take n).map Placed.token) := by
  induction hlen : ts.length using Nat.strongRecOn generalizing ts indent n with
  | ind k ih =>
    have hline {t : Placed} {us : List Placed} (hp : pastBlank (lineOf ts) = t :: us) :
        EndsFilled ((lineOf ts).map Placed.token) := by
      obtain ⟨hmem, hgap⟩ := isLineGap_of_pastBlank hs hp
      obtain ⟨vs, ws, hws⟩ := List.append_of_mem hmem
      refine ⟨vs.map Placed.token, t.token, ws.map Placed.token, ?_, fun hw => ?_, fun v hv => ?_⟩
      · rw [hws, List.map_append, List.map_cons]
      · rw [show t.kind = .whitespace from hw] at hgap
        cases hgap
      · obtain ⟨x, hx, rfl⟩ := List.mem_map.1 (show v ∈ (t :: ws).map Placed.token from hv)
        exact kind_of_mem_lineOf (hws ▸ List.mem_append_right vs hx)
    cases ha : afterLine ts with
    | nil =>
      rw [contentLength?_last _ _ ha] at h
      split at h
      · cases h
      · next hp =>
        split at h
        · cases h
        · cases h
          rw [take_lineOf]
          exact hline hp
    | cons t us =>
      have hbelow {m : Nat} {indent : Option Nat} (hm : contentLength? min indent us = some m) :
          EndsFilled ((ts.take ((lineOf ts).length + 1 + m)).map Placed.token) := by
        have hus : Spread us := by
          rw [Spread, lineOf_append_afterLine ts, ha, List.map_append] at hs
          exact hs.right_of_append.tail
        have hrest := ih us.length (hlen ▸ length_tail_afterLine t ts us ha) hus hm rfl
        rw [take_line ha, List.append_cons, List.map_append]
        exact hrest.behind _
      rw [contentLength?_line _ _ ha] at h
      split at h
      · -- a blank line, and the content goes on below
        obtain ⟨m, hm, rfl⟩ := Option.map_eq_some_iff.1 h
        exact hbelow hm
      · next hp =>
        split at h
        · cases h
        · split at h
          · next hm =>
            cases h
            exact hbelow hm
          · cases h
            rw [take_lineOf]
            exact hline hp

theorem exists_of_contentLength? {min n : Nat} {indent : Option Nat} (hs : Spread ts)
    (h : contentLength? min indent ts = some n) : ∃ t ∈ ts.take n, isLineGap t.kind = false := by
  obtain ⟨us, t, vs, hts, hw, hvs⟩ := endsFilled_of_contentLength? hs h
  obtain ⟨x, hx, rfl⟩ := List.mem_map.1 (hts ▸ List.mem_append_right us List.mem_cons_self)
  have hn : x.token.kind ≠ .newline := hvs _ List.mem_cons_self
  refine ⟨x, hx, ?_⟩
  change isLineGap x.token.kind = false
  cases hk : x.token.kind <;> first | rfl | simp [hk] at hw hn

end Content

section Inline

variable (s : List Char) (ts : List Placed)

theorem traced_properties : Traced s properties ts := by
  have hblank : Lossless (when atInnerBlank token) := lossless_token.when _
  refine Traced.loop (lossless_property.andThen hblank) (fun ts _ => ?_) ts
  refine Traced.andThen lossless_property ?_ (Traced.when fun _ => Traced.of_flat flat_token _)
  refine (Traced.of_flat flat_name ts).within ?_
  split <;> decide

theorem traced_blank : Traced s blank ts := Traced.when fun _ => Traced.of_flat flat_token ts

theorem traced_restOfLine : Traced s restOfLine ts :=
  Traced.when fun _ => (traced_blank s ts).andThen lossless_blank
    ((Traced.of_flat (flat_upTo _) _).within (by decide))

variable {s ts}

theorem contentOrigin_tokens {u : List Char} {min n : Nat} (h : Remain s u ts) (hnext : next ts = .newline)
    (hn : contentLength? min none ts.tail = some n) :
    ContentOrigin (u ++ forestText (token ts).trees) (tokens n (token ts).rest).trees := by
  cases ts with
  | nil => cases hnext
  | cons t ts =>
    obtain ⟨v, hv⟩ := h.lexed.1.newline hnext
    obtain ⟨x, hx, hgap⟩ := exists_of_contentLength? (h.rest lossless_token).spread hn
    obtain ⟨us, hus, hleaves⟩ := lossless_tokens n (token (t :: ts)).rest
    refine .inr ⟨.inr ⟨u ++ v, ?_⟩, x.token, ?_, hgap⟩
    · rw [token, forestText_cons, forestText_nil, List.append_nil, text_leaf, List.append_assoc]
      exact congrArg _ hv
    · have htake : us = (token (t :: ts)).rest.take n :=
        (List.append_inj_left' (hus.symm.trans (List.take_append_drop n _).symm) rfl)
      rw [hleaves, htake]
      exact List.mem_map_of_mem hx

theorem traced_blockLiteralContent (min : Nat) (h : ts = [] ∨ next ts = .newline) :
    Traced s (blockLiteralContent min) ts := by
  intro u hu
  rw [blockLiteralContent]
  split
  · next n hn =>
    have hnext : next ts = .newline := by
      refine h.resolve_left fun hnil => ?_
      rw [hnil, List.tail_nil, contentLength?_nil] at hn
      cases hn
    exact everyOf_append.2 ⟨Traced.of_flat flat_token ts u hu,
      ⟨contentOrigin_tokens hu hnext hn, Traced.of_flat (flat_tokens n) _ _ (hu.rest lossless_token)⟩, trivial⟩
  · exact ⟨⟨.inl rfl, trivial⟩, trivial⟩

variable (s ts)

theorem traced_blockLiteral (min : Nat) : Traced s (blockLiteral min) ts :=
  (((Traced.of_flat (flat_upTo _) ts).within (by decide)).andThen ((lossless_upTo _).within _)
    (traced_blockLiteralContent min (rest_upTo_newline ts))).within (by decide)

theorem traced_quotedLiteral : Traced s quotedLiteral ts := (Traced.of_flat flat_token ts).within (by decide)

theorem traced_inlineValue (min : Nat) : Traced s (inlineValue min) ts := by
  have herror : Traced s (token.within .error) ts := (Traced.of_flat flat_token ts).within (by decide)
  intro u h
  rw [inlineValue]
  split
  · exact traced_blockLiteral s ts min u h
  · exact traced_blockLiteral s ts min u h
  · exact traced_flowNode s ts u h
  · exact traced_flowNode s ts u h
  · exact traced_quotedLiteral s ts u h
  · exact herror u h
  · exact herror u h
  · exact herror u h
  · split
    · exact (Traced.of_flat flat_name ts).within (by decide) u h
    · exact (Traced.of_flat (flat_token.andThen (flat_plainRest min false)) ts).within (by decide) u h

theorem traced_keyContent : Traced s keyContent ts := by
  intro u h
  rw [keyContent]
  split
  · exact traced_quotedLiteral s ts u h
  · exact traced_flowNode s ts u h
  · exact traced_flowNode s ts u h
  · exact Traced.when (fun _ => (Traced.of_flat (flat_upTo _) ts).within (by decide)) u h

theorem traced_key : Traced s key ts :=
  ((traced_properties s ts).andThen lossless_properties ((traced_keyContent s _).andThen lossless_keyContent
    (Traced.when fun _ => (Traced.of_flat (flat_upTo _) _).within (by decide)))).within (by decide)

end Inline

section Block

variable {s : List Char} {node : Nat → Rule} (hl : ∀ min, Lossless (node min)) (hn : ∀ min ts, Traced s (node min) ts)
include hn

theorem traced_deeper (col : Nat) (ts : List Placed) : Traced s (deeper node col) ts :=
  Traced.when fun _ => (hn _ _).afterTrivia

include hl

theorem traced_itemValue (col : Nat) (ts : List Placed) : Traced s (itemValue node col) ts :=
  Traced.branch (fun _ => traced_deeper hn col ts) fun _ => (traced_blank s ts).andThen lossless_blank
    ((hn _ _).andThen (hl _) (traced_restOfLine s _))

theorem traced_marked {k : Kind} (hk : k ∉ [Kind.flowSequence, .flowMapping, .blockLiteralContent, .blockMapping])
    (col : Nat) (ts : List Placed) : Traced s ((token.andThen (itemValue node col)).within k) ts :=
  ((Traced.of_flat flat_token ts).andThen lossless_token (traced_itemValue hl hn col _)).within hk

theorem traced_sequence (col : Nat) (ts : List Placed) : Traced s (sequence node col) ts := by
  have hitem (us : List Placed) : Traced s (item node col) us := traced_marked hl hn (by decide) col us
  exact ((hitem ts).andThen (lossless_item hl col)
    (Traced.loop (lossless_trivia.andThen (lossless_item hl col)) (fun us _ => (hitem _).afterTrivia) _)).within
    (by decide)

theorem traced_pairValueBelow (col : Nat) (ts : List Placed) : Traced s (pairValueBelow node col) ts :=
  Traced.branch (fun _ => (traced_sequence hl hn col _).afterTrivia) fun _ => traced_deeper hn col ts

theorem traced_pairValue (col : Nat) (ts : List Placed) : Traced s (pairValue node col) ts :=
  Traced.branch (fun _ => traced_pairValueBelow hl hn col ts) fun _ => (traced_blank s ts).andThen lossless_blank
    ((traced_properties s _).andThen lossless_properties
      (Traced.branch (fun _ => traced_pairValueBelow hl hn col _) fun _ =>
        (traced_inlineValue s _ _).andThen (lossless_inlineValue _) (traced_restOfLine s _)))

theorem traced_pairTail (col : Nat) (ts : List Placed) : Traced s (pairTail node col) ts :=
  (Traced.when fun _ => Traced.of_flat flat_token ts).andThen (lossless_token.when _)
    ((Traced.when fun _ => Traced.of_flat flat_token _).andThen (lossless_token.when _) (traced_pairValue hl hn col _))

theorem traced_pair (col : Nat) (ts : List Placed) : Traced s (pair node col) ts :=
  (Traced.branch
    (fun _ => (traced_marked hl hn (by decide) col ts).andThen (lossless_explicitKey hl col)
      (Traced.when fun _ => (traced_pairTail hl hn col _).afterTrivia))
    fun _ => (Traced.when fun _ => traced_key s ts).andThen (lossless_key.when _)
      (traced_pairTail hl hn col _)).within (by decide)

omit hl hn in
theorem pairOrigin_pair {col : Nat} {u : List Char} {ts : List Placed} (h : Remain s u ts) (he : atEntry ts = true) :
    Each (PairOrigin s) u (pair node col ts).trees :=
  ⟨fun _ => ⟨node, col, ts, h, he, rfl⟩, trivial⟩

omit hl hn in
theorem pairOrigin_trivia (u : List Char) (ts : List Placed) : Each (PairOrigin s) u (trivia ts).trees :=
  (everyOf_leaves (P := PairOrigin s) (fun _ _ => nofun) (flat_upTo _ ts) u).each.imp fun _ _ => Every.self

omit hn in
theorem pairOrigin_mapping {col : Nat} {u : List Char} {ts : List Placed} (h : Remain s u ts) (he : atEntry ts = true) :
    Each (PairOrigin s) u
      ((pair node col).andThen (loop (entryFollows col atEntry) (trivia.andThen (pair node col))) ts).trees := by
  have hpass := lossless_trivia.andThen (lossless_pair hl col)
  refine each_append.2 ⟨pairOrigin_pair h he, ?_⟩
  refine trees_loop_along (A := Remain s) (F := Each (PairOrigin s)) (fun _ => trivial)
    (fun _ _ _ hc hd => each_append.2 ⟨hc, hd⟩) (fun _ _ h => h.rest hpass) ?_ _ _ (h.rest (lossless_pair hl col))
  intro v us hv hf
  simp only [entryFollows, Bool.and_eq_true] at hf
  have hrest := hv.rest lossless_trivia
  refine each_append.2 ⟨pairOrigin_trivia v us, ?_⟩
  rw [rest_trivia] at hrest ⊢
  exact pairOrigin_pair hrest hf.2

theorem traced_mapping (col : Nat) {ts : List Placed} (he : atEntry ts = true) : Traced s (mapping node col) ts := by
  refine Traced.node ?_ fun u h => pairOrigin_mapping hl h he
  exact (traced_pair hl hn col ts).andThen (lossless_pair hl col)
    (Traced.loop (lossless_trivia.andThen (lossless_pair hl col)) (fun us _ => (traced_pair hl hn col _).afterTrivia) _)

theorem traced_bareNode (min : Nat) (ts : List Placed) : Traced s (bareNode node min) ts := by
  intro u h
  rw [bareNode]
  split
  · exact traced_sequence hl hn _ ts u h
  · split
    · exact traced_blockLiteral s ts min u h
    · split
      · next he => exact traced_mapping hl hn _ he u h
      · exact traced_inlineValue s ts min u h

theorem traced_blockNodeOf (min : Nat) (ts : List Placed) : Traced s (blockNodeOf node min) ts :=
  Traced.branch
    (fun _ => (traced_properties s ts).andThen lossless_properties
      (Traced.branch (fun _ => Traced.when fun _ => (hn _ _).afterTrivia) fun _ => traced_bareNode hl hn min _))
    fun _ => traced_bareNode hl hn min ts

end Block

variable (s : List Char) (ts : List Placed)

theorem traced_blockNode (min : Nat) : Traced s (blockNode min) ts :=
  blockNode_induct (P := fun _ ts p => ∀ u, Remain s u ts → EveryOf (Origin s) u p.trees) (fun _ => lossless_skip)
    (fun _ ts => traced_skip s ts) (fun _ hl hn => traced_blockNodeOf hl hn) min ts

theorem traced_document : Traced s document ts := by
  have hnodes := lossless_trivia.andThen (lossless_blockNode 0)
  have htoken (us : List Placed) : Traced s token us := Traced.of_flat flat_token us
  exact ((Traced.when fun _ => htoken ts).andThen (lossless_token.when _)
    ((Traced.loop hnodes (fun us _ => (traced_blockNode s _ 0).afterTrivia) _).andThen (hnodes.loop _)
      (Traced.when fun _ => (htoken _).afterTrivia))).within (by decide)

theorem traced_documents : Traced s documents ts :=
  Traced.afterTrivia (Traced.loop (lossless_document.andThen lossless_trivia)
    (fun us _ => (traced_document s us).andThen lossless_document (Traced.of_flat (flat_upTo _) _)) _)

theorem every_origin : (parse s).Every (Origin s) [] :=
  ⟨trivial, traced_documents s _ [] (Placed.remain_place s)⟩

theorem origin_of_mem_nodes {l : Located} (h : l ∈ (parse s).nodes) :
    ∃ u, l.After u s ∧ Origin s u l.tree := by
  obtain ⟨u, hu, ho⟩ := (every_origin s).preorderFrom [] l (List.mem_filter.1 h).1
  rw [text_parse, List.nil_append] at hu
  exact ⟨u, hu, ho⟩

variable {s}

theorem flowOrigin_of_mem_nodes {n : Located} (hn : n ∈ (parse s).nodes) (hk : n.kind.isFlowCollection = true) :
    ∃ (b : Bracket) (u : List Char) (cs : List Tree), Text.byteLength u = n.start ∧ n.tree = .node b.collection cs ∧
      FlowOrigin s b u cs := by
  obtain ⟨u, hu, ho⟩ := origin_of_mem_nodes s hn
  rw [Located.kind] at hk
  cases htree : n.tree with
  | leaf t =>
    have hnode := (List.mem_filter.1 hn).2
    rw [htree] at hnode
    cases hnode
  | node k cs =>
    rw [htree] at ho hk
    rw [Tree.kind] at hk
    cases k with
    | flowSequence => exact ⟨.square, u, cs, hu.1, rfl, ho⟩
    | flowMapping => exact ⟨.curly, u, cs, hu.1, rfl, ho⟩
    | _ => cases hk

theorem part_of_encloses {P : Tree → Prop} {n m : Located}
    (hP : ∀ {ts}, Spread ts → Fresh ts → ∀ u, EveryOf (fun _ => P) u (flowNode ts).trees)
    (hn : n ∈ (parse s).nodes) (hk : n.kind.isFlowCollection = true) (hm : m ∈ (parse s).nodes)
    (h : n.encloses m = true) : P m.tree := by
  obtain ⟨b, u, cs, hu, htree, ts, hts, hnext, hflow⟩ := flowOrigin_of_mem_nodes hn hk
  have hparts := hP hts.spread (fresh_of_opener hnext) u
  rw [hflow, ← htree] at hparts
  have hbelow := mem_preorderFrom_of_encloses hn hm h
  rw [← hu] at hbelow
  obtain ⟨-, -, hpart⟩ := Every.preorderFrom n.address hparts.1 m hbelow
  exact hpart

theorem flowPart_of_encloses {n m : Located} (hn : n ∈ (parse s).nodes) (hk : n.kind.isFlowCollection = true)
    (hm : m ∈ (parse s).nodes) (h : n.encloses m = true) : FlowPart m.tree :=
  part_of_encloses (fun hs hf => (held_flowNode hs hf).1.parts) hn hk hm h

end Grammar

end LosslessYaml
