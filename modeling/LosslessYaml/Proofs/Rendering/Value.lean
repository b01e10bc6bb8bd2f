import LosslessYaml.Proofs.Tree.Prune
import LosslessYaml.Proofs.Writing.Block

/-! Block values and the ways to write them. A value is a word, a mapping or a sequence; a rendering of it chooses the
columns where collections start, and the comments and blank lines around its lines. -/

namespace LosslessYaml

namespace Tree

def containers : List Kind := [.stream, .document, .blockSequence, .item, .blockMapping, .pair]

/-- A tree without the trivia around its nodes. What is inside of scalars, keys and anchors stays. -/
def strip (t : Tree) : Tree := t.prune (· ∈ containers)

end Tree

namespace Rendering

open Writing (Word Shape Head Break Style spaces space indentTrees breakTrees)

mutual

inductive Value : Type
  | word (w : Word)
  | collection {k : Shape} (ms : Members k)

inductive Members : Shape → Type
  | last {k : Shape} (h : Head k) (anchor : Option Word) (v : Value) : Members k
  | more {k : Shape} (h : Head k) (anchor : Option Word) (v : Value) (rest : Members k) : Members k

end

def anchorTrees : Option Word → List Tree
  | none => []
  | some w => [w.anchor]

mutual

def Value.tree : Value → Tree
  | .word w => w.tree
  | .collection (k := k) ms => .node k.collection ms.trees

def Members.trees {k : Shape} : Members k → List Tree
  | .last h anchor v => [.node k.entry (h.trees ++ anchorTrees anchor ++ [v.tree])]
  | .more h anchor v rest => .node k.entry (h.trees ++ anchorTrees anchor ++ [v.tree]) :: rest.trees

end

structure Remark : Type where
  chars : List Char
  no_cr : '\r' ∉ chars
  no_lf : '\n' ∉ chars

def Remark.tree (r : Remark) : Tree := .leaf ⟨.comment, '#' :: r.chars⟩

def remarkText : Option Remark → List Char
  | none => []
  | some r => '#' :: r.chars

def remarkTrees : Option Remark → List Tree
  | none => []
  | some r => [r.tree]

structure Filler : Type where
  indent : Nat
  remark : Option Remark

def Filler.text (f : Filler) : List Char := spaces f.indent ++ remarkText f.remark

def Filler.trees (f : Filler) : List Tree := indentTrees f.indent ++ remarkTrees f.remark

structure Ending : Type where
  remark : Option Remark
  fillers : List (Break × Filler)

def endRemarkText : Option Remark → List Char
  | none => []
  | some r => ' ' :: '#' :: r.chars

def endRemarkTrees : Option Remark → List Tree
  | none => []
  | some r => [space, r.tree]

def fillersText (fs : List (Break × Filler)) : List Char := fs.flatMap fun f => f.1.text ++ f.2.text

def fillersTrees (fs : List (Break × Filler)) : List Tree :=
  fs.flatMap fun f => .leaf ⟨.newline, f.1.text⟩ :: f.2.trees

def Ending.text (e : Ending) : List Char := endRemarkText e.remark ++ fillersText e.fillers

def Ending.trees (e : Ending) : List Tree := endRemarkTrees e.remark ++ fillersTrees e.fillers

structure Gap : Type extends Ending where
  last : Break

def Gap.text (g : Gap) : List Char := g.toEnding.text ++ g.last.text

def Gap.trees (g : Gap) (d : Nat) : List Tree := g.toEnding.trees ++ breakTrees g.last d

abbrev style : Style where
  Gap := Gap
  Ending := Ending
  Inline := fun _ => Word
  gapText := Gap.text
  gapTrees := Gap.trees
  endingText := Ending.text
  endingTrees := Ending.trees
  inlineText := Word.chars
  inlineTree := Word.tree

abbrev Block : Shape → Nat → Type := Writing.Block style

abbrev Slot : Shape → Nat → Type := Writing.Slot style

mutual

def Block.members {k : Shape} {c : Nat} : Block k c → Members k
  | .last h s => .last h s.anchor (Slot.value s)
  | .more h s _ rest => .more h s.anchor (Slot.value s) (Block.members rest)

def Slot.value {k : Shape} {c : Nat} : Slot k c → Value
  | .inline _ w => .word w
  | .nested _ _ _ b => .collection (Block.members b)
  | .compact b => .collection (Block.members b)

end

inductive Root : Type
  | word (w : Word)
  | collection {k : Shape} (b : Block k 0)

namespace Root

def text : Root → List Char
  | .word w => w.chars
  | .collection b => b.text

def tree : Root → Tree
  | .word w => w.tree
  | .collection (k := k) b => .node k.collection b.trees

def value : Root → Value
  | .word w => .word w
  | .collection b => .collection b.members

end Root

end Rendering

structure Rendering : Type where
  before : List (Rendering.Filler × Writing.Break)
  root : Rendering.Root
  after : Rendering.Ending

namespace Rendering

open Writing (Word Shape Break)

def beforeText (fs : List (Filler × Break)) : List Char := fs.flatMap fun f => f.1.text ++ f.2.text

def beforeTrees (fs : List (Filler × Break)) : List Tree :=
  fs.flatMap fun f => f.1.trees ++ [.leaf ⟨.newline, f.2.text⟩]

def text (r : Rendering) : List Char := beforeText r.before ++ r.root.text ++ r.after.text

def tree (r : Rendering) : Tree :=
  .node .stream (beforeTrees r.before ++ .node .document [r.root.tree] :: r.after.trees)

def value (r : Rendering) : Value := r.root.value

def lineFeed : Gap := ⟨⟨none, []⟩, .lf⟩

mutual

def Members.block (c : Nat) {k : Shape} : Members k → Block k c
  | .last h anchor v => .last h (v.slot c anchor)
  | .more h anchor v rest => .more h (v.slot c anchor) lineFeed (rest.block c)

def Value.slot (c : Nat) (anchor : Option Word) {k : Shape} : Value → Slot k c
  | .word w => .inline anchor w
  | .collection ms =>
    .nested anchor lineFeed (.inl (Nat.lt_add_of_pos_right Nat.two_pos)) (ms.block (c + 2))

end

def ofValue : Value → Rendering
  | .word w => ⟨[], .word w, ⟨none, []⟩⟩
  | .collection ms => ⟨[], .collection (ms.block 0), ⟨none, []⟩⟩

theorem anchor_slot (c : Nat) (anchor : Option Word) (k : Shape) (v : Value) :
    (v.slot c anchor (k := k)).anchor = anchor := by
  cases v <;> rfl

mutual

theorem members_block (c : Nat) {k : Shape} : ∀ ms : Members k, (ms.block c).members = ms
  | .last h anchor v => by
    rw [Members.block, Block.members, anchor_slot, value_slot]
  | .more h anchor v rest => by
    rw [Members.block, Block.members, anchor_slot, value_slot, members_block c rest]

theorem value_slot (c : Nat) (anchor : Option Word) {k : Shape} :
    ∀ v : Value, (v.slot c anchor (k := k)).value = v
  | .word _ => rfl
  | .collection ms => congrArg Value.collection (members_block (c + 2) ms)

end

theorem value_ofValue (v : Value) : (ofValue v).value = v := by
  cases v with
  | word w => rfl
  | collection ms => exact congrArg Value.collection (members_block 0 ms)

end Rendering

end LosslessYaml
