import LosslessYaml.Proofs.Tree.Prune
import LosslessYaml.Proofs.Writing.Block

namespace LosslessYaml

namespace Tree

/-- A tree without any trivia. -/
def bare (t : Tree) : Tree := t.prune fun _ => true

end Tree

namespace Grammar.Bracket

def openMark : Bracket → Token
  | .square => ⟨.lbracket, ['[']⟩
  | .curly => ⟨.lbrace, ['{']⟩

def closeMark : Bracket → Token
  | .square => ⟨.rbracket, [']']⟩
  | .curly => ⟨.rbrace, ['}']⟩

end Grammar.Bracket

namespace Flow

open Grammar (Bracket)
open Writing (Word)

structure Gap : Type where
  chars : List Char
  blank : ∀ c ∈ chars, c = ' ' ∨ c = '\n'

mutual

inductive Value : Type
  | word (w : Word)
  | collection {b : Bracket} (c : Collection b)

inductive Collection : Bracket → Type
  | empty (b : Bracket) (g : Gap) : Collection b
  | filled {b : Bracket} (front : Gap) (ms : Members b) (back : Gap) : Collection b

inductive Members : Bracket → Type
  | last {b : Bracket} (m : Member b) : Members b
  | more {b : Bracket} (m : Member b) (before after : Gap) (rest : Members b) : Members b

/-- An entry of a sequence or of a mapping. The value of a pair does not touch the colon. -/
inductive Member : Bracket → Type
  | value (v : Value) : Member .square
  | pair (key : Word) (g : Gap) (hg : g.chars ≠ []) (v : Value) : Member .curly

end

mutual

def Value.text : Value → List Char
  | .word w => w.chars
  | .collection c => c.text

def Collection.text {b : Bracket} : Collection b → List Char
  | .empty b g => b.openMark.text ++ (g.chars ++ b.closeMark.text)
  | .filled front ms back => b.openMark.text ++ (front.chars ++ (ms.text ++ (back.chars ++ b.closeMark.text)))

def Members.text {b : Bracket} : Members b → List Char
  | .last m => m.text
  | .more m before after rest => m.text ++ (before.chars ++ ',' :: (after.chars ++ rest.text))

def Member.text {b : Bracket} : Member b → List Char
  | .value v => v.text
  | .pair key g _ v => key.chars ++ ':' :: (g.chars ++ v.text)

end

mutual

def Value.tree : Value → Tree
  | .word w => w.tree
  | .collection c => c.tree

def Collection.tree {b : Bracket} : Collection b → Tree
  | .empty b _ => .node b.collection [.leaf b.openMark, .leaf b.closeMark]
  | .filled _ ms _ => .node b.collection (.leaf b.openMark :: (ms.trees ++ [.leaf b.closeMark]))

def Members.trees {b : Bracket} : Members b → List Tree
  | .last m => [m.tree]
  | .more m _ _ rest => m.tree :: .leaf ⟨.comma, [',']⟩ :: rest.trees

def Member.tree {b : Bracket} : Member b → Tree
  | .value v => v.tree
  | .pair key _ _ v => .node .pair [.node .key [key.tree], .leaf ⟨.colon, [':']⟩, v.tree]

end

end Flow

end LosslessYaml
