import LosslessYaml.Grammar.Stream
import LosslessYaml.Proofs.Boundary.Lookahead
import LosslessYaml.Proofs.Grammar.Recursion

/-! What the grammar sees of its tokens: their kinds, their places and the marks that anchors, tags and aliases
start with. A change of texts that keeps these goes through every rule and leaves the tree as it is. -/

namespace LosslessYaml

def Token.isMark (c : Char) : Bool := c = '&' || c = '!' || c = '*'

/-- A change of the texts of tokens that the grammar cannot see. -/
structure Retext : Type where
  token : Token → Token
  kind_token : ∀ t, (token t).kind = t.kind
  mark_token : ∀ t c, Token.isMark c = true → ((token t).text.head? = some c ↔ t.text.head? = some c)

namespace Retext

variable (h : Retext)

def placed (t : Placed) : Placed := { t with token := h.token t.token }

mutual

def tree : Tree → Tree
  | .leaf t => .leaf (h.token t)
  | .node k cs => .node k (trees cs)

def trees : List Tree → List Tree
  | [] => []
  | t :: ts => tree t :: trees ts

end

def parsed (p : Parsed) : Parsed := ⟨h.trees p.trees, p.rest.map h.placed⟩

@[simp] theorem kind_placed (t : Placed) : (h.placed t).kind = t.kind := h.kind_token t.token

@[simp] theorem column_placed (t : Placed) : (h.placed t).column = t.column := rfl

@[simp] theorem startsLine_placed (t : Placed) : (h.placed t).startsLine = t.startsLine := rfl

@[simp] theorem token_placed (t : Placed) : (h.placed t).token = h.token t.token := rfl

@[simp] theorem trees_append (ts us : List Tree) : h.trees (ts ++ us) = h.trees ts ++ h.trees us := by
  induction ts with
  | nil => rfl
  | cons t ts ih => rw [List.cons_append, trees, trees, ih, List.cons_append]

mutual

theorem leaves_tree : ∀ t : Tree, (h.tree t).leaves = t.leaves.map h.token
  | .leaf _ => rfl
  | .node _ cs => leavesOf_trees cs

theorem leavesOf_trees : ∀ ts : List Tree, Tree.leavesOf (h.trees ts) = (Tree.leavesOf ts).map h.token
  | [] => rfl
  | t :: ts => by rw [trees, Tree.leavesOf, Tree.leavesOf, leaves_tree t, leavesOf_trees ts, List.map_append]

end

def Blind {α : Type} (test : List Placed → α) : Prop := ∀ ts, test (ts.map h.placed) = test ts

def Through (r : Rule) : Prop := ∀ ts, r (ts.map h.placed) = h.parsed (r ts)

end Retext

namespace Rule

open Retext

variable {h : Retext} {r s : Rule} {test : List Placed → Bool}

theorem through_skip : h.Through skip := fun _ => rfl

theorem through_token : h.Through token
  | [] => rfl
  | _ :: _ => rfl

theorem through_tokens (n : Nat) : h.Through (tokens n) := by
  intro ts
  have hleaves : ∀ us : List Placed, (us.map h.placed).map (fun t => Tree.leaf t.token) =
      h.trees (us.map fun t => .leaf t.token) := by
    intro us
    induction us with
    | nil => rfl
    | cons u us ih => rw [List.map_cons, List.map_cons, ih]; rfl
  rw [tokens, tokens, ← List.map_take, ← List.map_drop, hleaves]
  rfl

theorem through_upTo (ht : h.Blind test) : h.Through (upTo test) := by
  intro ts
  induction ts with
  | nil => rfl
  | cons t ts ih =>
    have ht := ht (t :: ts)
    rw [List.map_cons] at ht ⊢
    rw [upTo, upTo, ht, ih]
    split <;> rfl

theorem through_andThen (hr : h.Through r) (hs : h.Through s) : h.Through (r.andThen s) := by
  intro ts
  simp only [andThen, hr ts, parsed, hs (r ts).rest, trees_append]

theorem through_within (hr : h.Through r) (k : Kind) : h.Through (r.within k) := by
  intro ts
  rw [within, within, hr ts]
  rfl

theorem through_branch (ht : h.Blind test) (hr : h.Through r) (hs : h.Through s) :
    h.Through (branch test r s) := by
  intro ts
  rw [branch, branch, ht ts, hr ts, hs ts]
  split <;> rfl

theorem through_when (ht : h.Blind test) (hr : h.Through r) : h.Through (when test r) :=
  through_branch ht hr through_skip

theorem through_loop (ht : h.Blind test) (hr : h.Through r) : h.Through (loop test r) := by
  intro ts
  have hlen : (r (ts.map h.placed)).rest.length < (ts.map h.placed).length ↔
      (r ts).rest.length < ts.length := by
    rw [hr ts, parsed, List.length_map, List.length_map]
  fun_induction loop test r ts with
  | case1 ts hts p hp q ih =>
    have ih := ih (by rw [hr p.rest, parsed, List.length_map, List.length_map])
    rw [loop, if_pos ((ht ts).trans hts), if_pos (hlen.2 hp)]
    simp only [hr ts, parsed, ih, trees_append, p, q]
  | case2 ts hts p hp =>
    rw [loop, if_pos ((ht ts).trans hts), if_neg (mt hlen.1 hp), hr ts]
  | case3 ts hts =>
    rw [loop, if_neg (by rw [ht ts]; exact hts)]
    rfl

theorem through_below {n : Nat} (hr : ∀ ts, ts.length < n → r (ts.map h.placed) = h.parsed (r ts))
    (hs : h.Through s) : h.Through (below n r s) := by
  intro ts
  rw [below, below, List.length_map]
  split
  · exact hr ts ‹_›
  · exact hs ts

end Rule

namespace Grammar

open Rule Retext

variable {h : Retext}

section Lookahead

variable (ts : List Placed)

@[simp] theorem next_map : next (ts.map h.placed) = next ts := by
  cases ts <;> simp

@[simp] theorem column_map : column (ts.map h.placed) = column ts := by
  cases ts <;> rfl

@[simp] theorem startsLine_map : startsLine (ts.map h.placed) = startsLine ts := by
  cases ts <;> rfl

@[simp] theorem tail_map : (ts.map h.placed).tail = ts.tail.map h.placed := List.map_tail.symm

theorem initial?_map {c : Char} (hc : Token.isMark c = true) :
    initial? (ts.map h.placed) = some c ↔ initial? ts = some c := by
  cases ts with
  | nil => exact Iff.rfl
  | cons t ts => exact h.mark_token t.token c hc

theorem dropWhile_map {p : Placed → Bool} (hp : ∀ t, p (h.placed t) = p t) :
    (ts.map h.placed).dropWhile p = (ts.dropWhile p).map h.placed := by
  rw [List.dropWhile_map]
  exact congrArg (fun q => (ts.dropWhile q).map h.placed) (funext hp)

@[simp] theorem pastTrivia_map : pastTrivia (ts.map h.placed) = (pastTrivia ts).map h.placed :=
  dropWhile_map ts fun t => by rw [kind_placed]

@[simp] theorem pastBlank_map : pastBlank (ts.map h.placed) = (pastBlank ts).map h.placed := by
  cases ts with
  | nil => rfl
  | cons t ts =>
    rw [List.map_cons, pastBlank, pastBlank, kind_placed]
    split <;> rfl

@[simp] theorem atLineEnd_map : atLineEnd (ts.map h.placed) = atLineEnd ts := by
  simp only [atLineEnd, pastBlank_map, next_map]

@[simp] theorem atGap_map : atGap (ts.map h.placed) = atGap ts := by
  simp only [atGap, next_map]

@[simp] theorem atIndicator_map (k : Kind) : atIndicator k (ts.map h.placed) = atIndicator k ts := by
  simp only [atIndicator, next_map, tail_map, atGap_map]

@[simp] theorem atMarker_map : atMarker (ts.map h.placed) = atMarker ts := by
  simp only [atMarker, atIndicator_map, column_map]

@[simp] theorem atBlockLiteral_map : atBlockLiteral (ts.map h.placed) = atBlockLiteral ts := by
  simp only [atBlockLiteral, next_map]

@[simp] theorem atProperty_map : atProperty (ts.map h.placed) = atProperty ts := by
  simp only [atProperty, next_map, initial?_map ts (c := '&') rfl, initial?_map ts (c := '!') rfl]

@[simp] theorem atAlias_map : atAlias (ts.map h.placed) = atAlias ts := by
  simp only [atAlias, next_map, initial?_map ts (c := '*') rfl]

@[simp] theorem colonAhead_map (depth : Nat) : colonAhead depth (ts.map h.placed) = colonAhead depth ts := by
  induction ts generalizing depth with
  | nil => rfl
  | cons t ts ih => simp only [List.map_cons, colonAhead, kind_placed, ih, atGap_map]

@[simp] theorem atEntry_map : atEntry (ts.map h.placed) = atEntry ts := by
  simp only [atEntry, atQuestion, atDash, atIndicator_map, atMarker_map, atBlockLiteral_map, colonAhead_map]

@[simp] theorem contentAhead_map : contentAhead (ts.map h.placed) = contentAhead ts := by
  simp only [contentAhead, pastTrivia_map, List.isEmpty_map, atMarker_map]

end Lookahead

theorem through_trivia : h.Through trivia := through_upTo fun ts => by simp only [next_map]

theorem through_blank : h.Through blank := through_when (fun ts => by simp only [next_map]) through_token

section Flow

variable {node : Rule} (hn : h.Through node) (ts : List Placed)

@[simp] theorem atFlowColon_map (adjacent : Bool) :
    atFlowColon adjacent (ts.map h.placed) = atFlowColon adjacent ts := by
  simp only [atFlowColon, next_map, tail_map]

@[simp] theorem endsFlowPlain_map : endsFlowPlain (ts.map h.placed) = endsFlowPlain ts := by
  simp only [endsFlowPlain, next_map, atFlowColon_map]

@[simp] theorem colonLength?_map (adjacent : Bool) :
    colonLength? adjacent (ts.map h.placed) = colonLength? adjacent ts := by
  simp only [colonLength?, next_map, tail_map, atFlowColon_map]

@[simp] theorem atFlowValueEnd_map : atFlowValueEnd (ts.map h.placed) = atFlowValueEnd ts := by
  simp only [atFlowValueEnd, atMarker_map, next_map]

@[simp] theorem flowContinues_map : flowContinues (ts.map h.placed) = flowContinues ts := by
  simp only [flowContinues, contentAhead_map, pastTrivia_map, next_map]

theorem through_flowPlain : h.Through flowPlain :=
  through_within (through_andThen through_token
    (through_upTo fun ts => by simp only [pastBlank_map, endsFlowPlain_map])) _

theorem through_quotedLiteral : h.Through quotedLiteral := through_within through_token _

include hn

theorem through_flowPairTail (colon : Option Nat) : h.Through (flowPairTail node colon) := by
  cases colon with
  | none => exact through_skip
  | some n =>
    refine through_andThen (through_tokens n) (through_when (fun ts => ?_) (through_andThen through_trivia hn))
    simp only [pastTrivia_map, atFlowValueEnd_map]

theorem through_flowEntry (b : Bracket) : h.Through (flowEntry node b) := by
  intro ts
  have hpair := through_within (through_flowPairTail hn (colonLength? false ts)) .pair ts
  have htail := fun colon => through_flowPairTail hn colon (node ts).rest
  rw [flowEntry, flowEntry, atFlowColon_map, colonLength?_map]
  split
  · exact hpair
  · simp only [hn ts, parsed, next_map, colonLength?_map, htail]
    split <;> rfl

theorem through_flowBody (b : Bracket) : h.Through (flowBody node b) := by
  have hcomma : h.Blind fun ts => decide (next ts = .comma) := fun ts => by simp only [next_map]
  have hentry := through_branch hcomma through_token (through_flowEntry hn b)
  refine through_andThen (through_loop (fun ts => flowContinues_map ts)
    (through_andThen through_trivia hentry)) ?_
  exact through_when (fun ts => by simp only [pastTrivia_map, next_map])
    (through_andThen through_trivia through_token)

theorem through_flowNodeOf : h.Through (flowNodeOf node) := by
  intro ts
  have hc : ∀ b, h.Through (flowCollectionOf node b) := fun b =>
    through_within (through_andThen through_token (through_flowBody hn b)) _
  rw [flowNodeOf, flowNodeOf, next_map]
  split
  · exact hc .square ts
  · exact hc .curly ts
  · exact through_quotedLiteral ts
  · exact through_flowPlain ts

end Flow

theorem through_flowNode : h.Through flowNode := by
  intro ts
  induction hlen : ts.length using Nat.strongRecOn generalizing ts with
  | ind n ih =>
    rw [flowNode_eq skip, flowNode_eq skip ts, List.length_map, hlen]
    exact through_flowNodeOf (through_below (fun us hus => ih us.length hus us rfl) through_skip) ts

section Scalar

variable (ts : List Placed)

@[simp] theorem continuesName_map : continuesName (ts.map h.placed) = continuesName ts := by
  simp only [continuesName, atColon, next_map, atIndicator_map]

@[simp] theorem atInnerBlank_map : atInnerBlank (ts.map h.placed) = atInnerBlank ts := by
  simp only [atInnerBlank, atColon, next_map, atLineEnd_map, tail_map, atIndicator_map]

@[simp] theorem plainContinues_map (min : Nat) : plainContinues min (ts.map h.placed) = plainContinues min ts := by
  have hgap := dropWhile_map (h := h) ts (p := fun t => isLineGap t.kind) fun t => by rw [kind_placed]
  simp only [plainContinues, hgap, pastBlank_map, next_map, column_map, atMarker_map, atEntry_map]

theorem through_name : h.Through name :=
  through_andThen through_token (through_upTo fun ts => by simp only [continuesName_map])

theorem through_property : h.Through property := by
  intro ts
  rw [property, property, through_within through_name]
  simp only [initial?_map ts (c := '&') rfl]

theorem through_properties : h.Through properties :=
  through_loop (fun ts => atProperty_map ts) (through_andThen through_property
    (through_when (fun ts => atInnerBlank_map ts) through_token))

theorem through_restOfLine : h.Through restOfLine :=
  through_when (fun ts => by simp only [atLineEnd_map]) (through_andThen through_blank
    (through_within (through_upTo fun ts => atLineEnd_map ts) _))

theorem through_plainRest (min : Nat) (gap : Bool) : h.Through (plainRest min gap) := by
  intro ts
  induction ts generalizing gap with
  | nil => rfl
  | cons t ts ih =>
    have hend := atLineEnd_map (h := h) (t :: ts)
    have hgoes := plainContinues_map (h := h) (t :: ts) min
    rw [List.map_cons] at hend hgoes ⊢
    rw [plainRest, plainRest, hend, hgoes, kind_placed]
    simp only [ih]
    split
    · rfl
    · split
      · rfl
      · split <;> rfl

theorem through_plainScalar (min : Nat) : h.Through (plainScalar min) :=
  through_within (through_andThen through_token (through_plainRest min false)) _

@[simp] theorem lineOf_map : lineOf (ts.map h.placed) = (lineOf ts).map h.placed := by
  rw [lineOf, lineOf, List.takeWhile_map]
  exact congrArg (fun q => (ts.takeWhile q).map h.placed) (funext fun t => by simp)

@[simp] theorem afterLine_map : afterLine (ts.map h.placed) = (afterLine ts).map h.placed :=
  dropWhile_map ts fun t => by rw [kind_placed]

@[simp] theorem contentLength?_map (min : Nat) (indent : Option Nat) :
    contentLength? min indent (ts.map h.placed) = contentLength? min indent ts := by
  induction hlen : ts.length using Nat.strongRecOn generalizing ts indent with
  | ind n ih =>
    have hafter := afterLine_map (h := h) ts
    cases ha : afterLine ts with
    | nil =>
      rw [ha] at hafter
      rw [contentLength?_last _ _ ha, contentLength?_last _ _ hafter, lineOf_map, pastBlank_map,
        pastBlank_map, atMarker_map, List.length_map]
      cases pastBlank (lineOf ts) <;> rfl
    | cons t us =>
      have hrec (indent : Option Nat) :=
        ih us.length (hlen ▸ length_tail_afterLine t ts us ha) us indent rfl
      rw [ha] at hafter
      rw [contentLength?_line _ _ ha, contentLength?_line _ _ hafter, lineOf_map, pastBlank_map,
        pastBlank_map, atMarker_map, List.length_map]
      simp only [hrec]
      cases pastBlank (lineOf ts) <;> rfl

theorem through_blockLiteral (min : Nat) : h.Through (blockLiteral min) := by
  have hcontent : h.Through (blockLiteralContent min) := by
    intro ts
    rw [blockLiteralContent, blockLiteralContent, tail_map, contentLength?_map]
    split
    · exact through_andThen through_token (through_within (through_tokens _) _) ts
    · exact through_within through_skip _ ts
  exact through_within (through_andThen
    (through_within (through_upTo fun ts => by simp only [next_map]) _) hcontent) _

theorem through_inlineValue (min : Nat) : h.Through (inlineValue min) := by
  intro ts
  rw [inlineValue, inlineValue, next_map, atAlias_map]
  split
  · exact through_blockLiteral min ts
  · exact through_blockLiteral min ts
  · exact through_flowNode ts
  · exact through_flowNode ts
  · exact through_quotedLiteral ts
  · exact through_within through_token _ ts
  · exact through_within through_token _ ts
  · exact through_within through_token _ ts
  · split
    · exact through_within through_name _ ts
    · exact through_plainScalar min ts

end Scalar

section Block

variable {node : Nat → Rule} (hn : ∀ min, h.Through (node min)) (col min : Nat)

theorem blind_entryFollows {test : List Placed → Bool} (ht : h.Blind test) :
    h.Blind (entryFollows col test) := by
  intro ts
  simp only [entryFollows, pastTrivia_map, column_map, startsLine_map, ht (pastTrivia ts)]

theorem blind_atFlushSequence : h.Blind (atFlushSequence col) := by
  intro ts
  simp only [atFlushSequence, atDash, pastTrivia_map, column_map, atIndicator_map]

theorem blind_atKeyEnd : h.Blind atKeyEnd := by
  intro ts
  simp only [atKeyEnd, atColon, atLineEnd_map, pastBlank_map, atIndicator_map]

theorem through_key : h.Through key := by
  have hnot : h.Blind fun ts => !atKeyEnd ts := fun ts => congrArg not (blind_atKeyEnd ts)
  have hupTo : h.Through (upTo atKeyEnd) := through_upTo blind_atKeyEnd
  have hcontent : h.Through keyContent := by
    intro ts
    rw [keyContent, keyContent, next_map]
    split
    · exact through_quotedLiteral ts
    · exact through_flowNode ts
    · exact through_flowNode ts
    · exact through_when hnot (through_within hupTo _) ts
  exact through_within (through_andThen through_properties (through_andThen hcontent
    (through_when hnot (through_within hupTo _)))) _

include hn

theorem through_deeper : h.Through (deeper node col) :=
  through_when (fun ts => by simp only [contentAhead_map, pastTrivia_map, column_map])
    (through_andThen through_trivia (hn _))

theorem through_itemValue : h.Through (itemValue node col) :=
  through_branch atLineEnd_map (through_deeper hn col)
    (through_andThen through_blank (through_andThen (hn _) through_restOfLine))

theorem through_sequence : h.Through (sequence node col) := by
  have hitem : h.Through (item node col) :=
    through_within (through_andThen through_token (through_itemValue hn col)) _
  exact through_within (through_andThen hitem (through_loop
    (blind_entryFollows col fun ts => atIndicator_map ts .dash) (through_andThen through_trivia hitem))) _

theorem through_pairValue : h.Through (pairValue node col) := by
  have hbelow : h.Through (pairValueBelow node col) :=
    through_branch (blind_atFlushSequence col) (through_andThen through_trivia (through_sequence hn col))
      (through_deeper hn col)
  exact through_branch atLineEnd_map hbelow (through_andThen through_blank
    (through_andThen through_properties (through_branch atLineEnd_map hbelow
      (through_andThen (through_inlineValue _) through_restOfLine))))

theorem through_pairTail : h.Through (pairTail node col) :=
  through_andThen (through_when (fun ts => by simp only [next_map, tail_map]) through_token)
    (through_andThen (through_when (fun ts => by simp only [next_map]) through_token)
      (through_pairValue hn col))

theorem through_pair : h.Through (pair node col) := by
  have hexplicit : h.Through (explicitKey node col) :=
    through_within (through_andThen through_token (through_itemValue hn col)) _
  refine through_within (through_branch (fun ts => atIndicator_map ts .question) ?_ ?_) _
  · exact through_andThen hexplicit (through_when
      (blind_entryFollows col fun ts => atIndicator_map ts .colon)
      (through_andThen through_trivia (through_pairTail hn col)))
  · exact through_andThen (through_when (fun ts => by simp only [next_map]) through_key)
      (through_pairTail hn col)

theorem through_mapping : h.Through (mapping node col) :=
  through_within (through_andThen (through_pair hn col) (through_loop
    (blind_entryFollows col atEntry_map) (through_andThen through_trivia (through_pair hn col)))) _

theorem through_bareNode : h.Through (bareNode node min) := by
  intro ts
  rw [bareNode, bareNode, atDash, atDash, atIndicator_map, atBlockLiteral_map, atEntry_map, column_map]
  split
  · exact through_sequence hn _ ts
  · split
    · exact through_blockLiteral min ts
    · split
      · exact through_mapping hn _ ts
      · exact through_inlineValue min ts

theorem through_blockNodeOf : h.Through (blockNodeOf node min) := by
  have hbelow : h.Through (describedBelow node min) :=
    through_when (fun ts => by simp only [contentAhead_map, pastTrivia_map, column_map])
      (through_andThen through_trivia (hn _))
  exact through_branch (fun ts => by simp only [atProperty_map, atEntry_map])
    (through_andThen through_properties (through_branch atLineEnd_map hbelow (through_bareNode hn min)))
    (through_bareNode hn min)

end Block

theorem through_blockNode (min : Nat) : h.Through (blockNode min) := by
  intro ts
  induction hlen : ts.length using Nat.strongRecOn generalizing min ts with
  | ind n ih =>
    rw [blockNode_eq (fun _ => skip), blockNode_eq (fun _ => skip) min ts, List.length_map, hlen]
    exact through_blockNodeOf
      (fun col => through_below (fun us hus => ih us.length hus col us rfl) through_skip) min ts

theorem through_documents : h.Through documents := by
  have hdocument : h.Through document := by
    refine through_within (through_andThen ?_ (through_andThen ?_ ?_)) _
    · exact through_when (fun ts => by simp only [atMarker_map, next_map]) through_token
    · exact through_loop contentAhead_map (through_andThen through_trivia (through_blockNode 0))
    · exact through_when (fun ts => by simp only [pastTrivia_map, atMarker_map, next_map])
        (through_andThen through_trivia through_token)
  exact through_andThen through_trivia (through_loop (fun ts => by simp only [List.isEmpty_map])
    (through_andThen hdocument through_trivia))

end Grammar

theorem Retext.tree_ofPlaced (h : Retext) (ts : List Placed) :
    Tree.ofPlaced (ts.map h.placed) = h.tree (Tree.ofPlaced ts) := by
  rw [Tree.ofPlaced, Grammar.through_documents]
  rfl

end LosslessYaml
