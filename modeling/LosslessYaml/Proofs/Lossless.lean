import LosslessYaml.Proofs.Assembly.Checked
import LosslessYaml.Proofs.Assembly.Rule
import LosslessYaml.Proofs.Grammar.Recursion

namespace LosslessYaml

namespace Grammar

open Rule

/-- The grammar ends without the tests for progress in `Rule.loop`, `flowNode` and `blockNode`. Every
pass of every loop takes a token, and no answer depends on what is done with a nested node that is
not shorter than the node around it. -/
structure Terminates : Prop where
  properties : Advances atProperty (property.andThen (when atInnerBlank token))
  flowEntries (b : Bracket) : Advances flowContinues
    (trivia.andThen (branch (fun ts => next ts = .comma) token (flowEntry flowNode b)))
  items (col : Nat) : Advances (entryFollows col atDash) (trivia.andThen (item blockNode col))
  pairs (col : Nat) : Advances (entryFollows col atEntry) (trivia.andThen (pair blockNode col))
  nodes : Advances contentAhead (trivia.andThen (blockNode 0))
  documents : Advances (fun ts => !ts.isEmpty) (document.andThen trivia)
  nestedFlow (other : Rule) (ts : List Placed) :
    flowNode ts = flowNodeOf (below ts.length flowNode other) ts
  nestedBlock (other : Nat → Rule) (min : Nat) (ts : List Placed) :
    blockNode min ts = blockNodeOf (fun col => below ts.length (blockNode col) (other col)) min ts

theorem terminates : Terminates where
  properties := advances_properties
  flowEntries := advances_flowEntries
  items := advances_items
  pairs := advances_pairs
  nodes := advances_nodes
  documents := advances_documents
  nestedFlow := flowNode_eq
  nestedBlock := blockNode_eq

theorem rest_loop_of_advances {r : Rule} (h : Advances (fun ts => !ts.isEmpty) r)
    (ts : List Placed) :
    (loop (fun ts => !ts.isEmpty) r ts).rest = [] := by
  induction hn : ts.length using Nat.strongRecOn generalizing ts with
  | ind n ih =>
    cases ht : (!ts.isEmpty) with
    | true =>
      have hr := h ts ht
      rw [loop_of_takes ht hr]
      rw [Takes, hn] at hr
      exact ih _ hr (r ts).rest rfl
    | false =>
      rw [loop_of_not ht]
      simpa using ht

theorem rest_documents (ts : List Placed) : (documents ts).rest = [] :=
  rest_loop_of_advances advances_documents _

end Grammar

theorem leaves_ofPlaced (ts : List Placed) : (Tree.ofPlaced ts).leaves = ts.map Placed.token := by
  obtain ⟨us, h, hl⟩ := Grammar.lossless_documents ts
  rw [Grammar.rest_documents, List.append_nil] at h
  rw [Tree.ofPlaced, Tree.leaves, hl, ← h]

theorem leaves_parse (s : List Char) : (parse s).leaves = Token.scan s := by
  rw [parse, leaves_ofPlaced, Placed.map_token_place]

theorem text_parse (s : List Char) : (parse s).text = s := by
  rw [Tree.text, leaves_parse, Token.textOf_scan]

namespace Assembly

theorem readStream_ofText (s : List Char) :
    (ofText s).readStream = ((planOf false (LosslessYaml.parse s)).drive (ofText s)).2 := by
  rw [readStream, emit_eq_drive]
  rfl

theorem map_token_ofText (s : List Char) :
    (ofText s).tokens.map Placed.token = (planOf false (LosslessYaml.parse s)).tree.leaves := by
  rw [tree_planOf, leaves_parse, ofText, Placed.map_token_place]

theorem map_token_rest_ofText (s : List Char) :
    (ofText s).rest.map Placed.token = (planOf false (LosslessYaml.parse s)).tree.leaves ++ [] := by
  rw [List.append_nil, ← map_token_ofText]
  rfl

theorem atEnd_readStream (s : List Char) : (ofText s).readStream.atEnd = true := by
  have hr : (ofText s).rest = (ofText s).tokens := rfl
  rw [readStream_ofText, Plan.drive_eq _ (ofText s) [] (map_token_rest_ofText s), atEnd, rest_advance, hr,
    ← map_token_ofText s, List.length_map, List.drop_length]
  rfl

theorem drive?_ofText (s : List Char) :
    ((planOf false (LosslessYaml.parse s)).drive? (ofText s)).map Prod.snd = some (ofText s).readStream := by
  rw [Plan.drive?_eq_drive _ (ofText s) [] (map_token_rest_ofText s), readStream_ofText]
  rfl

theorem parse_ofText (s : List Char) : (ofText s).parse = .ok (LosslessYaml.parse s) := by
  have h := Plan.finish_drive (isNode_planOf false (LosslessYaml.parse s)) (map_token_ofText s)
  rw [tree_planOf] at h
  rw [parse, readStream_ofText]
  exact h

end Assembly

/-- The grammar ends by itself and reads every token, no check of a mark fails on the way, the events written describe
a tree, and that tree is a stream whose leaves are the tokens of the text. -/
theorem parse_lossless (s : List Char) :
    Grammar.Terminates ∧
      Assembly.Stepwise ∧
      ((Assembly.planOf false (parse s)).drive? (Assembly.ofText s)).map Prod.snd =
        some (Assembly.ofText s).readStream ∧
      (Grammar.documents (Placed.place (Token.scan s))).rest = [] ∧
      (Assembly.ofText s).readStream.atEnd = true ∧
      (Assembly.ofText s).parse = .ok (parse s) ∧
      (∃ cs, parse s = .node .stream cs) ∧
      (parse s).leaves = Token.scan s ∧
      (parse s).text = s := by
  refine ⟨Grammar.terminates, Assembly.stepwise, Assembly.drive?_ofText s, Grammar.rest_documents _,
    Assembly.atEnd_readStream s, Assembly.parse_ofText s, ⟨_, rfl⟩, leaves_parse s, ?_⟩
  rw [Tree.text, leaves_parse, Token.textOf_scan]

end LosslessYaml
