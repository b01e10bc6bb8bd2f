import LosslessYaml.Proofs.Schema.Flow
import LosslessYaml.Proofs.Tree.Layout

namespace LosslessYaml

namespace Rule

open Layout

def Plain (r : Rule) : Prop := ∀ ts, Bare (r ts).trees

variable {r s : Rule}

theorem Flat.plain (hr : Flat r) : Plain r := fun ts => bare_leaves (hr ts)

theorem plain_skip : Plain skip := fun _ => bare_nil

theorem Plain.andThen (hr : Plain r) (hs : Plain s) : Plain (r.andThen s) :=
  fun ts => (hr ts).append (hs _)

theorem Plain.within (hr : Plain r) {k : Kind}
    (hk : k ∉ [Kind.blockSequence, .blockMapping, .item]) :
    Plain (r.within k) :=
  fun ts => (hr ts).node hk

theorem Plain.branch (hr : Plain r) (hs : Plain s) (test : List Placed → Bool) :
    Plain (branch test r s) :=
  fun ts => trees_branch (fun _ => hr ts) fun _ => hs ts

theorem Plain.when (hr : Plain r) (test : List Placed → Bool) : Plain (when test r) :=
  hr.branch plain_skip test

theorem Plain.loop (hr : Plain r) (test : List Placed → Bool) : Plain (loop test r) :=
  trees_loop bare_nil (fun _ _ => Bare.append) fun ts _ => hr ts

end Rule

namespace Grammar

open Rule Layout LosslessYaml.Tree

theorem plain_trivia : Plain trivia := (flat_upTo _).plain

theorem plain_blank : Plain blank := flat_token.plain.when _

theorem plain_properties : Plain properties :=
  Plain.loop (Plain.andThen (r := property)
    (fun ts => (flat_name.plain ts).node (by split <;> decide))
    (flat_token.plain.when _)) _

theorem plain_restOfLine : Plain restOfLine :=
  (plain_blank.andThen ((flat_upTo _).plain.within (by decide))).when _

theorem plain_quotedLiteral : Plain quotedLiteral := flat_token.plain.within (by decide)

section Flow

variable {node : Rule} (hn : Plain node)
include hn

theorem plain_flowPairTail (colon : Option Nat) : Plain (flowPairTail node colon) := by
  cases colon with
  | none => exact plain_skip
  | some n => exact (flat_tokens n).plain.andThen ((plain_trivia.andThen hn).when _)

theorem plain_flowEntry (b : Bracket) : Plain (flowEntry node b) := by
  intro ts
  simp only [flowEntry]
  split
  · exact (plain_flowPairTail hn _).within (by decide) ts
  · split
    · exact hn ts
    · have hk : Bare [Tree.node .key (node ts).trees] := (hn ts).node (by decide)
      exact (hk.append (plain_flowPairTail hn _ _)).node (by decide)

theorem plain_flowNodeOf : Plain (flowNodeOf node) := by
  have hc (b : Bracket) : Plain (flowCollectionOf node b) := by
    have he := flat_token.plain.branch (plain_flowEntry hn b) (fun ts => next ts = .comma)
    refine Plain.within (flat_token.plain.andThen (((plain_trivia.andThen he).loop _).andThen
      ((plain_trivia.andThen flat_token.plain).when _))) ?_
    cases b <;> decide
  intro ts
  rw [flowNodeOf]
  split
  · exact hc .square ts
  · exact hc .curly ts
  · exact plain_quotedLiteral ts
  · exact (flat_token.andThen (flat_upTo _)).plain.within (by decide) ts

end Flow

theorem plain_flowNode : Plain flowNode :=
  flowNode_induct (P := fun _ p => Bare p.trees) lossless_skip plain_skip
    fun _ _ hn => plain_flowNodeOf hn

theorem plain_blockLiteral (min : Nat) : Plain (blockLiteral min) := by
  refine Plain.within (((flat_upTo _).plain.within (by decide)).andThen ?_) (by decide)
  intro ts
  rw [blockLiteralContent]
  split
  · exact (flat_token.plain.andThen ((flat_tokens _).plain.within (by decide))) ts
  · exact plain_skip.within (by decide) ts

theorem plain_inlineValue (min : Nat) : Plain (inlineValue min) := by
  intro ts
  rw [inlineValue]
  split
  · exact plain_blockLiteral min ts
  · exact plain_blockLiteral min ts
  · exact plain_flowNode ts
  · exact plain_flowNode ts
  · exact plain_quotedLiteral ts
  · exact flat_token.plain.within (by decide) ts
  · exact flat_token.plain.within (by decide) ts
  · exact flat_token.plain.within (by decide) ts
  · split
    · exact flat_name.plain.within (by decide) ts
    · exact (flat_token.andThen (flat_plainRest min false)).plain.within (by decide) ts

theorem plain_key : Plain key := by
  have hc : Plain keyContent := by
    intro ts
    rw [keyContent]
    split
    · exact plain_quotedLiteral ts
    · exact plain_flowNode ts
    · exact plain_flowNode ts
    · exact ((flat_upTo _).plain.within (by decide)).when _ ts
  exact (plain_properties.andThen
    (hc.andThen (((flat_upTo _).plain.within (by decide)).when _))).within (by decide)

end Grammar

end LosslessYaml
