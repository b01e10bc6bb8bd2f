import LosslessYaml.Proofs.Tree.Every
import LosslessYaml.Proofs.Writing.Block

namespace LosslessYaml

namespace Outline

open Writing (Word Shape Head Break Style spaces space indentTrees breakTrees anchorText anchorTrees)

/-- What stands on the line of its head. A block scalar has one or more lines in column `d`, each with the line break in
front of it. -/
inductive Inline (c : Nat) : Type
  | word (w : Word)
  | literal {d : Nat} (h : c < d) (e : Break) (w : Word) (ls : List (Break × Word))

def linesText (d : Nat) : List (Break × Word) → List Char
  | [] => []
  | (e, w) :: ls => e.text ++ (spaces d ++ (w.chars ++ linesText d ls))

def Inline.text {c : Nat} : Inline c → List Char
  | .word w => w.chars
  | .literal (d := d) _ e w ls => '|' :: linesText d ((e, w) :: ls)

def contentTrees (d : Nat) (w : Word) : List (Break × Word) → List Tree
  | [] => indentTrees d ++ [.leaf ⟨.text, w.chars⟩]
  | (e, v) :: ls => indentTrees d ++ .leaf ⟨.text, w.chars⟩ :: .leaf ⟨.newline, e.text⟩ :: contentTrees d v ls

def literalTree (d : Nat) (e : Break) (w : Word) (ls : List (Break × Word)) : Tree :=
  .node .blockLiteral [.node .blockLiteralHeader [.leaf ⟨.pipe, ['|']⟩], .leaf ⟨.newline, e.text⟩,
    .node .blockLiteralContent (contentTrees d w ls)]

def Inline.tree {c : Nat} : Inline c → Tree
  | .word w => w.tree
  | .literal (d := d) _ e w ls => literalTree d e w ls

def endingText : Option Break → List Char
  | none => []
  | some e => e.text

def endingTrees : Option Break → List Tree
  | none => []
  | some e => [.leaf ⟨.newline, e.text⟩]

abbrev style : Style where
  Gap := Break
  Ending := Option Break
  Inline := Inline
  gapText := Break.text
  gapTrees := breakTrees
  endingText := endingText
  endingTrees := endingTrees
  inlineText := Inline.text
  inlineTree := Inline.tree

abbrev Block : Shape → Nat → Type := Writing.Block style

abbrev Slot : Shape → Nat → Type := Writing.Slot style

/-- What a line is in an outline: the first line of a block scalar, one of its further lines, or a line on which
some entry starts, the last one in the given column. -/
inductive Role : Type
  | header
  | content
  | entry (c : Nat)

structure Row : Type where
  start : Nat
  text : List Char
  role : Role

namespace Row

def stop (r : Row) : Nat := r.start + Text.byteLength r.text

def indent (r : Row) : Nat := (r.text.takeWhile (· = ' ')).length

def target (unit : Nat) (r : Row) : Nat :=
  match r.role with
  | .header => r.indent + unit
  | .content => r.indent
  | .entry c => c

end Row

def contentRows (d n : Nat) : List (Break × Word) → List Row
  | [] => []
  | (e, w) :: ls =>
    let r : Row := ⟨n + Text.byteLength e.text, spaces d ++ w.chars, .content⟩
    r :: contentRows d r.stop ls

mutual

/-- The rows of a collection whose first head stands behind `pre` on a line that starts at `n`. -/
def Block.rows {k : Shape} {c : Nat} (n : Nat) (pre : List Char) : Block k c → List Row
  | .last h s => Slot.rows n (pre ++ h.text) s
  | .more h s e rest =>
    Slot.rows n (pre ++ h.text) s ++
      Block.rows (n + Text.byteLength (pre ++ h.text ++ s.text ++ e.text)) (spaces c) rest

def Slot.rows {k : Shape} {c : Nat} (n : Nat) (pre : List Char) : Slot k c → List Row
  | .inline anchor (.word w) => [⟨n, pre ++ (anchorText anchor ++ ' ' :: w.chars), .entry c⟩]
  | .inline anchor (.literal (d := d) _ e w ls) =>
    let r : Row := ⟨n, pre ++ (anchorText anchor ++ [' ', '|']), .header⟩
    r :: contentRows d r.stop ((e, w) :: ls)
  | .nested (d := d) anchor e _ b =>
    let r : Row := ⟨n, pre ++ anchorText anchor, .entry c⟩
    r :: Block.rows (r.stop + Text.byteLength e.text) (spaces d) b
  | .compact b => Block.rows n (pre ++ [' ']) b

end

end Outline

structure Outline : Type where
  shape : Writing.Shape
  root : Outline.Block shape 0
  ending : Option Writing.Break

namespace Outline

def text (o : Outline) : List Char := o.root.text ++ endingText o.ending

def rows (o : Outline) : List Row := o.root.rows 0 []

def tree (o : Outline) : Tree :=
  .node .stream (.node .document [.node o.shape.collection o.root.trees] :: endingTrees o.ending)

section Text

open LosslessYaml.Tree (forestText forestText_append forestText_cons forestText_nil text_leaf text_node)
open Writing (Word Shape Head Break spaces space indentTrees breakTrees anchorText anchorTrees)

theorem forestText_indentTrees (d : Nat) : forestText (indentTrees d) = spaces d := by
  cases d with
  | zero => rfl
  | succ d => simp [indentTrees]

theorem forestText_breakTrees (e : Break) (d : Nat) :
    forestText (breakTrees e d) = e.text ++ spaces d := by
  rw [breakTrees, forestText_cons, text_leaf, forestText_indentTrees]

theorem forestText_anchorTrees (anchor : Option Word) :
    forestText (anchorTrees anchor) = anchorText anchor := by
  cases anchor <;> simp [anchorTrees, anchorText, space, Word.anchor]

theorem forestText_head {k : Shape} (h : Head k) : forestText h.trees = h.text := by
  cases h <;> simp [Head.trees, Head.text, Word.tree]

theorem forestText_contentTrees (d : Nat) (w : Word) (ls : List (Break × Word)) :
    forestText (contentTrees d w ls) = spaces d ++ (w.chars ++ linesText d ls) := by
  induction ls generalizing w with
  | nil => simp [contentTrees, forestText_indentTrees, linesText]
  | cons l ls ih => simp [contentTrees, forestText_indentTrees, linesText, ih]

theorem text_literalTree (d : Nat) (e : Break) (w : Word) (ls : List (Break × Word)) :
    (literalTree d e w ls).text = '|' :: linesText d ((e, w) :: ls) := by
  simp [literalTree, linesText, forestText_contentTrees]

theorem Inline.text_tree {c : Nat} (x : Inline c) : x.tree.text = x.text := by
  cases x with
  | word w => simp [tree, text, Word.tree]
  | literal h e w ls => exact text_literalTree _ e w ls

mutual

theorem forestText_block {k : Shape} {c : Nat} : ∀ b : Block k c, forestText b.trees = b.text
  | .last h s => by simp [Writing.Block.trees, Writing.Block.text, forestText_head, forestText_slot s]
  | .more h s e rest => by
    simp [Writing.Block.trees, Writing.Block.text, forestText_head, forestText_slot s, forestText_breakTrees,
      forestText_block rest]

theorem forestText_slot {k : Shape} {c : Nat} : ∀ s : Slot k c, forestText s.trees = s.text
  | .inline anchor x => by
    simp [Writing.Slot.trees, Writing.Slot.text, forestText_anchorTrees, space, Inline.text_tree x]
  | .nested anchor e _ b => by
    simp [Writing.Slot.trees, Writing.Slot.text, forestText_anchorTrees, forestText_breakTrees, forestText_block b]
  | .compact b => by simp [Writing.Slot.trees, Writing.Slot.text, space, forestText_block b]

end

theorem text_tree (o : Outline) : o.tree.text = o.text := by
  cases he : o.ending <;> simp [tree, text, he, endingTrees, endingText, forestText_block]

end Text

end Outline

end LosslessYaml
