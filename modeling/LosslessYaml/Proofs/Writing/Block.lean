import LosslessYaml.Tree

/-! Block collections as they are written. A collection is a list of entries, each with a head and with a value that
stands on the line of the head or below it. What columns have to obey is part of the types. A style says what may stand
between two lines, behind the last line, and on the line of a head; the rest is the same in all styles. -/

namespace LosslessYaml

namespace Writing

structure Word : Type where
  chars : List Char
  ne_nil : chars ≠ []
  alphanum : ∀ c ∈ chars, c.isAlphanum = true

def Word.tree (w : Word) : Tree := .node .literal [.leaf ⟨.text, w.chars⟩]

def Word.anchor (w : Word) : Tree := .node .anchor [.leaf ⟨.text, '&' :: w.chars⟩]

inductive Break : Type
  | lf
  | crlf

def Break.text : Break → List Char
  | .lf => ['\n']
  | .crlf => ['\r', '\n']

inductive Shape : Type
  | mapping
  | sequence
  deriving DecidableEq

namespace Shape

def collection : Shape → Kind
  | .mapping => .blockMapping
  | .sequence => .blockSequence

def entry : Shape → Kind
  | .mapping => .pair
  | .sequence => .item

/-- Whether a collection may stand in column `d` below an entry in column `c`. -/
def Below (owner : Shape) (c : Nat) (inner : Shape) (d : Nat) : Prop :=
  c < d ∨ c = d ∧ owner = .mapping ∧ inner = .sequence

end Shape

inductive Head : Shape → Type
  | key (w : Word) : Head .mapping
  | dash : Head .sequence

def Head.text {k : Shape} : Head k → List Char
  | .key w => w.chars ++ [':']
  | .dash => ['-']

def Head.trees {k : Shape} : Head k → List Tree
  | .key w => [.node .key [w.tree], .leaf ⟨.colon, [':']⟩]
  | .dash => [.leaf ⟨.dash, ['-']⟩]

def spaces (n : Nat) : List Char := List.replicate n ' '

def space : Tree := .leaf ⟨.whitespace, [' ']⟩

def indentTrees (d : Nat) : List Tree := if d = 0 then [] else [.leaf ⟨.whitespace, spaces d⟩]

def breakTrees (e : Break) (d : Nat) : List Tree := .leaf ⟨.newline, e.text⟩ :: indentTrees d

def anchorText : Option Word → List Char
  | none => []
  | some w => ' ' :: '&' :: w.chars

def anchorTrees : Option Word → List Tree
  | none => []
  | some w => [space, w.anchor]

/-- The trees of a gap end with the blanks in front of the line behind it. -/
structure Style : Type 1 where
  Gap : Type
  Ending : Type
  Inline : (c : Nat) → Type
  gapText : Gap → List Char
  gapTrees : Gap → (d : Nat) → List Tree
  endingText : Ending → List Char
  endingTrees : Ending → List Tree
  inlineText : {c : Nat} → Inline c → List Char
  inlineTree : {c : Nat} → Inline c → Tree

mutual

inductive Block (S : Style) : Shape → Nat → Type
  | last {k : Shape} {c : Nat} (h : Head k) (s : Slot S k c) : Block S k c
  | more {k : Shape} {c : Nat} (h : Head k) (s : Slot S k c) (g : S.Gap) (rest : Block S k c) : Block S k c

inductive Slot (S : Style) : Shape → Nat → Type
  | inline {k : Shape} {c : Nat} (anchor : Option Word) (x : S.Inline c) : Slot S k c
  | nested {k j : Shape} {c d : Nat} (anchor : Option Word) (g : S.Gap) (h : k.Below c j d) (b : Block S j d) :
      Slot S k c
  | compact {j : Shape} {c : Nat} (b : Block S j (c + 2)) : Slot S .sequence c

end

variable {S : Style} {k : Shape} {c : Nat}

mutual

/-- The text of a collection, without the blanks in front of its first line and without the end of its last line. -/
def Block.text {k : Shape} {c : Nat} : Block S k c → List Char
  | .last h s => h.text ++ s.text
  | .more h s g rest => h.text ++ (s.text ++ (S.gapText g ++ (spaces c ++ rest.text)))

def Slot.text {k : Shape} {c : Nat} : Slot S k c → List Char
  | .inline anchor x => anchorText anchor ++ ' ' :: S.inlineText x
  | .nested (d := d) anchor g _ b => anchorText anchor ++ (S.gapText g ++ (spaces d ++ b.text))
  | .compact b => ' ' :: b.text

end

mutual

def Block.trees {k : Shape} {c : Nat} : Block S k c → List Tree
  | .last h s => [.node k.entry (h.trees ++ s.trees)]
  | .more h s g rest => .node k.entry (h.trees ++ s.trees) :: (S.gapTrees g c ++ rest.trees)

def Slot.trees {k : Shape} {c : Nat} : Slot S k c → List Tree
  | .inline anchor x => anchorTrees anchor ++ [space, S.inlineTree x]
  | .nested (j := j) (d := d) anchor g _ b =>
    anchorTrees anchor ++ (S.gapTrees g d ++ [.node j.collection b.trees])
  | .compact (j := j) b => [space, .node j.collection b.trees]

end

def Slot.anchor : Slot S k c → Option Word
  | .inline anchor _ => anchor
  | .nested anchor _ _ _ => anchor
  | .compact _ => none

end Writing

end LosslessYaml
