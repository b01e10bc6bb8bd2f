import LosslessYaml.Indent
import LosslessYaml.Proofs.Frontmatter.Fences
import LosslessYaml.Proofs.Lossless
import LosslessYaml.Proofs.Tree.Descent

namespace LosslessYaml

namespace Tree

structure InnermostAt (root : Tree) (pos : Nat) (side : Side) (n : Located) : Prop where
  mem : n ∈ root.nodes
  holds : n = root.located ∨ side.holds pos n.start n.stop = true
  inside : ∀ m ∈ root.nodes, m = root.located ∨ side.holds pos m.start m.stop = true → m.encloses n = true

section Innermost

variable {root : Tree} {pos : Nat} {side : Side} {n : Located}

theorem holds_iff (hroot : root.isNode = true) (hn : n ∈ root.nodes) (hne : n ≠ root.located) :
    side.holds pos n.start n.stop = true ↔
      n = (root.focus pos side).node ∨ n.isAbove (root.focus pos side).node = true := by
  have hmem := (mem_focus hroot pos side).1
  have hat : n.encloses (root.focus pos side).node = true ↔ n = root.located ∨ side.holds pos n.start n.stop = true :=
    encloses_focus_iff hroot hn
  rw [or_iff_right hne] at hat
  rw [← hat]
  constructor
  · intro h
    by_cases ha : n.address = (root.focus pos side).node.address
    · exact .inl (eq_of_address hn hmem ha)
    · exact .inr (Located.isAbove_iff.2 ⟨Located.encloses_iff.1 h, ha⟩)
  · rintro (rfl | h)
    · exact Located.encloses_iff.2 (List.prefix_refl _)
    · exact Located.encloses_iff.2 (Located.isAbove_iff.1 h).1

theorem innermostAt_iff (hroot : root.isNode = true) :
    root.InnermostAt pos side n ↔ n = (root.focus pos side).node := by
  obtain ⟨hmem, hat⟩ := mem_focus hroot pos side
  constructor
  · intro h
    have hout := Located.encloses_iff.1 ((encloses_focus_iff hroot h.mem).2 h.holds)
    have hin := Located.encloses_iff.1 (h.inside _ hmem hat)
    exact eq_of_address h.mem hmem (hout.eq_of_length_le hin.length_le)
  · rintro rfl
    exact ⟨hmem, hat, fun m hm => (encloses_focus_iff hroot hm).2⟩

theorem le_stop_of_mem_chain (hroot : root.isNode = true) (hpos : pos ≤ root.byteLength)
    (h : n ∈ (root.focus pos .before).chain) : pos ≤ n.stop := by
  rcases (mem_chain_focus hroot h).2 with rfl | hat
  · exact Nat.le_trans hpos (Nat.le_add_left _ _)
  · simp only [Side.holds, Bool.and_eq_true, decide_eq_true_eq] at hat
    exact hat.2

end Innermost

end Tree

namespace Cursor

def anyOpinion (c : Cursor) : List Located → Except Fault (Option Nat)
  | [] => return none
  | n :: ns => do
    match ← c.opinion n with
    | .column k => return some k
    | .silence => return none
    | .pass => anyOpinion c ns

theorem firstOpinion_eq_anyOpinion {c : Cursor} {ns : List Located} (h : ∀ n ∈ ns, c.pos ≤ n.stop) :
    c.firstOpinion ns = c.anyOpinion ns := by
  induction ns with
  | nil => rfl
  | cons n ns ih =>
    obtain ⟨hn, hns⟩ := List.forall_mem_cons.1 h
    rewrite [firstOpinion, anyOpinion, if_neg (Nat.not_lt.2 hn), ih hns]
    rfl

end Cursor

theorem root_of_text {s : List Char} {root : Tree} (h : root = parse s ∨ root = Frontmatter.parse s) :
    root.isNode = true ∧ root.byteLength = Text.byteLength s := by
  rw [Tree.byteLength_eq]
  rcases h with rfl | rfl
  · exact ⟨rfl, by rw [text_parse]⟩
  · exact ⟨rfl, by rw [Frontmatter.text_parse]⟩

/-- The nodes at a place, the root apart, are the node that a descent ends at and the nodes around it, so that this
node is the innermost one. Looking back from a place in the text, none of these nodes ends before the place: a walk
from the inside out that asks every node until one decides gives the same indentation. -/
theorem focus_innermost {s : List Char} {root : Tree} (h : root = parse s ∨ root = Frontmatter.parse s)
    (pos : Nat) (side : Side) :
    (∀ n ∈ root.nodes, n ≠ root.located →
      (side.holds pos n.start n.stop = true ↔
        n = (root.focus pos side).node ∨ n.isAbove (root.focus pos side).node = true)) ∧
      (∀ n, root.InnermostAt pos side n ↔ n = (root.focus pos side).node) ∧
      (pos ≤ Text.byteLength s → ∀ n ∈ root.nodes,
        n.encloses (root.focus pos .before).node = true → pos ≤ n.stop) ∧
      ∀ (d : Document) (unit : Nat) (c : Cursor), d.text = s → c = .ofOffset root d pos unit →
        (∀ n ∈ c.focus.chain, ¬ n.stop < c.pos) ∧ c.streamIndent = c.anyOpinion c.focus.chain := by
  obtain ⟨hroot, hlen⟩ := root_of_text h
  refine ⟨fun n hn hne => Tree.holds_iff hroot hn hne, fun n => Tree.innermostAt_iff hroot, ?_, ?_⟩
  · intro hpos n hn hat
    exact Tree.le_stop_of_mem_chain hroot (hlen ▸ hpos) ((Tree.mem_chain_iff_encloses hroot hn).2 hat)
  · rintro d unit c hd rfl
    have hreach : ∀ n ∈ (Cursor.ofOffset root d pos unit).focus.chain, min pos d.size ≤ n.stop := by
      intro n hn
      refine Tree.le_stop_of_mem_chain hroot ?_ hn
      rw [hlen, ← hd, ← d.size_eq]
      exact Nat.min_le_right _ _
    exact ⟨fun n hn => Nat.not_lt.2 (hreach n hn), Cursor.firstOpinion_eq_anyOpinion hreach⟩

/-- The content of the block scalar is an empty node that stands where the header ends. -/
theorem focus_innermost_behind_header :
    ((parse "a: |\n".toList).focus 4 .before).node.kind = .blockLiteralHeader ∧
      (∃ n ∈ (parse "a: |\n".toList).nodes, n.kind = .blockLiteralContent ∧ n.start = 4 ∧ n.stop = 4) ∧
      ∀ n ∈ (parse "a: |\n".toList).nodes, n ≠ (parse "a: |\n".toList).located →
        (Side.before.holds 4 n.start n.stop = true ↔
          n = ((parse "a: |\n".toList).focus 4 .before).node ∨
            n.isAbove ((parse "a: |\n".toList).focus 4 .before).node = true) :=
  ⟨by decide +kernel, by decide +kernel, (focus_innermost (s := "a: |\n".toList) (.inl rfl) 4 .before).1⟩

end LosslessYaml
