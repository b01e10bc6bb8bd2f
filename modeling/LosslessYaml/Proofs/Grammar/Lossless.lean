import LosslessYaml.Grammar.Stream

namespace LosslessYaml.Grammar

open Rule

theorem lossless_trivia : Lossless trivia := lossless_upTo _

theorem lossless_blank : Lossless blank := lossless_token.when _

theorem lossless_flowPlain : Lossless flowPlain :=
  (lossless_token.andThen (lossless_upTo _)).within _

theorem lossless_quotedLiteral : Lossless quotedLiteral := lossless_token.within _

section Flow

variable {node : Rule} (hn : Lossless node)
include hn

theorem lossless_flowPairTail (colon : Option Nat) : Lossless (flowPairTail node colon) := by
  cases colon with
  | none => exact lossless_skip
  | some n => exact (lossless_tokens n).andThen ((lossless_trivia.andThen hn).when _)

theorem lossless_flowEntry (b : Bracket) : Lossless (flowEntry node b) := by
  intro ts
  simp only [flowEntry]
  split
  · exact (lossless_flowPairTail hn _).within .pair ts
  · split
    · exact hn ts
    · -- the tail starts where the key's node ended
      obtain ⟨us, h, hl⟩ := hn ts
      obtain ⟨vs, h', hl'⟩ := lossless_flowPairTail hn
        (colonLength? (endsItself (next ts)) (node ts).rest) (node ts).rest
      refine ⟨us ++ vs, ?_, ?_⟩
      · rw [List.append_assoc, ← h', ← h]
      · simp [Tree.leavesOf, Tree.leaves, hl, hl']

theorem lossless_flowBody (b : Bracket) : Lossless (flowBody node b) :=
  ((lossless_trivia.andThen (lossless_token.branch (lossless_flowEntry hn b) _)).loop _).andThen
    ((lossless_trivia.andThen lossless_token).when _)

theorem lossless_flowCollectionOf (b : Bracket) : Lossless (flowCollectionOf node b) :=
  (lossless_token.andThen (lossless_flowBody hn b)).within _

theorem lossless_flowNodeOf : Lossless (flowNodeOf node) := by
  intro ts
  rw [flowNodeOf]
  split
  · exact lossless_flowCollectionOf hn .square ts
  · exact lossless_flowCollectionOf hn .curly ts
  · exact lossless_quotedLiteral ts
  · exact lossless_flowPlain ts

end Flow

theorem lossless_flowNode : Lossless flowNode := by
  intro ts
  fun_induction flowNode ts with
  | case1 ts ih => exact lossless_flowNodeOf (lossless_below ih lossless_skip) ts

theorem lossless_name : Lossless name := lossless_token.andThen (lossless_upTo _)

theorem lossless_property : Lossless property := by
  intro ts
  exact lossless_name.within _ ts

theorem lossless_properties : Lossless properties :=
  (lossless_property.andThen (lossless_token.when _)).loop _

theorem lossless_restOfLine : Lossless restOfLine :=
  (lossless_blank.andThen ((lossless_upTo _).within _)).when _

theorem lossless_plainRest (min : Nat) (gap : Bool) : Lossless (plainRest min gap) := by
  intro ts
  induction ts generalizing gap with
  | nil => exact ⟨[], rfl, rfl⟩
  | cons t ts ih =>
    have step (gap : Bool) : ∃ us, t :: ts = us ++ (plainRest min gap ts).rest ∧
        Tree.leavesOf (.leaf t.token :: (plainRest min gap ts).trees) = us.map Placed.token := by
      obtain ⟨us, h, hl⟩ := ih gap
      refine ⟨t :: us, congrArg (t :: ·) h, ?_⟩
      rw [List.map_cons, ← hl]
      rfl
    rw [plainRest]
    split
    · exact step true
    · split
      · exact step false
      · split
        · exact step true
        · exact ⟨[], rfl, rfl⟩

theorem lossless_plainScalar (min : Nat) : Lossless (plainScalar min) :=
  (lossless_token.andThen (lossless_plainRest min false)).within _

theorem lossless_blockLiteralContent (min : Nat) : Lossless (blockLiteralContent min) := by
  intro ts
  rw [blockLiteralContent]
  split
  · exact (lossless_token.andThen ((lossless_tokens _).within _)) ts
  · exact lossless_skip.within _ ts

theorem lossless_blockLiteral (min : Nat) : Lossless (blockLiteral min) :=
  (((lossless_upTo _).within _).andThen (lossless_blockLiteralContent min)).within _

theorem lossless_inlineValue (min : Nat) : Lossless (inlineValue min) := by
  intro ts
  rw [inlineValue]
  split
  · exact lossless_blockLiteral min ts
  · exact lossless_blockLiteral min ts
  · exact lossless_flowNode ts
  · exact lossless_flowNode ts
  · exact lossless_quotedLiteral ts
  · exact lossless_token.within _ ts
  · exact lossless_token.within _ ts
  · exact lossless_token.within _ ts
  · split
    · exact lossless_name.within _ ts
    · exact lossless_plainScalar min ts

theorem lossless_keyContent : Lossless keyContent := by
  intro ts
  rw [keyContent]
  split
  · exact lossless_quotedLiteral ts
  · exact lossless_flowNode ts
  · exact lossless_flowNode ts
  · exact ((lossless_upTo _).within _).when _ ts

theorem lossless_key : Lossless key :=
  (lossless_properties.andThen (lossless_keyContent.andThen
    (((lossless_upTo _).within _).when _))).within _

section Block

variable {node : Nat → Rule} (hn : ∀ min, Lossless (node min))
include hn

theorem lossless_deeper (col : Nat) : Lossless (deeper node col) :=
  (lossless_trivia.andThen (hn _)).when _

theorem lossless_itemValue (col : Nat) : Lossless (itemValue node col) :=
  (lossless_deeper hn col).branch (lossless_blank.andThen ((hn _).andThen lossless_restOfLine)) _

theorem lossless_item (col : Nat) : Lossless (item node col) :=
  (lossless_token.andThen (lossless_itemValue hn col)).within _

theorem lossless_sequence (col : Nat) : Lossless (sequence node col) :=
  ((lossless_item hn col).andThen
    ((lossless_trivia.andThen (lossless_item hn col)).loop _)).within _

theorem lossless_pairValueBelow (col : Nat) : Lossless (pairValueBelow node col) :=
  (lossless_trivia.andThen (lossless_sequence hn col)).branch (lossless_deeper hn col) _

theorem lossless_pairValue (col : Nat) : Lossless (pairValue node col) :=
  (lossless_pairValueBelow hn col).branch
    (lossless_blank.andThen (lossless_properties.andThen ((lossless_pairValueBelow hn col).branch
      ((lossless_inlineValue _).andThen lossless_restOfLine) _))) _

theorem lossless_explicitKey (col : Nat) : Lossless (explicitKey node col) :=
  (lossless_token.andThen (lossless_itemValue hn col)).within _

theorem lossless_pairTail (col : Nat) : Lossless (pairTail node col) :=
  (lossless_token.when _).andThen ((lossless_token.when _).andThen (lossless_pairValue hn col))

theorem lossless_pair (col : Nat) : Lossless (pair node col) :=
  (((lossless_explicitKey hn col).andThen
    ((lossless_trivia.andThen (lossless_pairTail hn col)).when _)).branch
    ((lossless_key.when _).andThen (lossless_pairTail hn col)) _).within _

theorem lossless_mapping (col : Nat) : Lossless (mapping node col) :=
  ((lossless_pair hn col).andThen
    ((lossless_trivia.andThen (lossless_pair hn col)).loop _)).within _

theorem lossless_bareNode (min : Nat) : Lossless (bareNode node min) := by
  intro ts
  rw [bareNode]
  split
  · exact lossless_sequence hn _ ts
  · split
    · exact lossless_blockLiteral min ts
    · split
      · exact lossless_mapping hn _ ts
      · exact lossless_inlineValue min ts

theorem lossless_blockNodeOf (min : Nat) : Lossless (blockNodeOf node min) :=
  (lossless_properties.andThen (((lossless_trivia.andThen (hn min)).when _).branch
    (lossless_bareNode hn min) _)).branch (lossless_bareNode hn min) _

end Block

theorem lossless_blockNode (min : Nat) : Lossless (blockNode min) := by
  intro ts
  fun_induction blockNode min ts with
  | case1 min ts ih =>
    exact lossless_blockNodeOf (fun col => lossless_below (ih col) lossless_skip) min ts

theorem lossless_document : Lossless document :=
  ((lossless_token.when _).andThen
    (((lossless_trivia.andThen (lossless_blockNode 0)).loop _).andThen
    ((lossless_trivia.andThen lossless_token).when _))).within _

theorem lossless_documents : Lossless documents :=
  lossless_trivia.andThen ((lossless_document.andThen lossless_trivia).loop _)

end LosslessYaml.Grammar
