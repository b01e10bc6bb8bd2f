import LosslessYaml.Grammar.Flow
import LosslessYaml.Proofs.Tree.Every

namespace LosslessYaml

namespace Tree

def isTrivia : Tree → Bool
  | .leaf t => t.kind.isTrivia
  | .node _ _ => false

def isLeafOf (k : Kind) : Tree → Bool
  | .leaf t => t.kind = k
  | .node _ _ => false

def isNodeOf (ks : List Kind) : Tree → Bool
  | .leaf _ => false
  | .node k _ => k ∈ ks

end Tree

namespace Schema

open LosslessYaml.Tree Grammar

def inlineKinds : List Kind := [.literal, .quotedLiteral, .flowSequence, .flowMapping]

def valueKinds : List Kind :=
  [.blockSequence, .blockMapping, .blockLiteral, .flowSequence, .flowMapping, .literal,
    .quotedLiteral, .aliasNode]

def remarkKinds : List Kind := [.anchor, .tag, .error]

/-- Trivia, colons, and nodes of two classes, with at most `n` values and `m` colons. -/
structure Content (values others : List Kind) (n m : Nat) (cs : List Tree) : Prop where
  kinds : ∀ t ∈ cs, t.isTrivia ∨ t.isLeafOf .colon ∨ t.isNodeOf values ∨ t.isNodeOf others
  values : cs.countP (isNodeOf values) ≤ n
  colons : cs.countP (isLeafOf .colon) ≤ m

/-- A forest of entries: the first and the last tree are entries, the others entries or trivia. -/
structure Entries (entry : Tree → Prop) (cs : List Tree) : Prop where
  first : ∃ t, cs.head? = some t ∧ entry t
  last : ∃ t, cs.getLast? = some t ∧ entry t
  between : ∀ t ∈ cs, entry t ∨ t.isTrivia

def Document (cs : List Tree) : Prop :=
  ∃ opening body closing, cs = opening ++ body ++ closing ∧
    (opening = [] ∨ ∃ t, opening = [t] ∧ t.isLeafOf .directiveEnd) ∧
    (closing = [] ∨ ∃ t, closing = [t] ∧ t.isLeafOf .documentEnd) ∧
    ∀ t ∈ body, t.isTrivia ∨ t.isNodeOf valueKinds ∨ t.isNodeOf remarkKinds

def Item (cs : List Tree) : Prop :=
  ∃ dash rest, cs = dash :: rest ∧ dash.isLeafOf .dash ∧ Content valueKinds remarkKinds 1 0 rest

def BlockKey (cs : List Tree) : Prop :=
  (∃ mark rest, cs = mark :: rest ∧ mark.isLeafOf .question ∧
    Content valueKinds remarkKinds 1 0 rest) ∨
    Content inlineKinds remarkKinds 1 0 cs

def BlockPair (t : Tree) : Prop :=
  ∃ keys rest, t = .node .pair (keys ++ rest) ∧
    (keys = [] ∨ ∃ cs, keys = [.node .key cs] ∧ BlockKey cs) ∧
    Content valueKinds remarkKinds 1 1 rest

def FlowPair (t : Tree) : Prop :=
  ∃ keys rest, t = .node .pair (keys ++ rest) ∧
    (keys = [] ∨ ∃ c, keys = [.node .key [c]] ∧ c.isNodeOf inlineKinds) ∧
    Content inlineKinds [] 1 1 rest

/-- What a flow collection holds between its brackets. Only a sequence has values without a key. -/
def Inside (b : Bracket) (t : Tree) : Prop :=
  t.isTrivia ∨ t.isLeafOf .comma ∨ (b = .square ∧ t.isNodeOf inlineKinds) ∨ FlowPair t

def FlowCollection (b : Bracket) (cs : List Tree) : Prop :=
  ∃ opening body closing, cs = opening :: body ++ closing ∧ opening.isLeafOf b.opener ∧
    (closing = [] ∨ ∃ t, closing = [t] ∧ t.isLeafOf b.closer) ∧ ∀ t ∈ body, Inside b t

def BlockLiteral (cs : List Tree) : Prop :=
  ∃ header, cs = [.node .blockLiteralHeader header, .node .blockLiteralContent []] ∨
    ∃ t content, cs = [.node .blockLiteralHeader header, t, .node .blockLiteralContent content] ∧
      t.isLeafOf .newline ∧ content ≠ []

/-- The schema itself. Nodes of the kinds it does not list are in no syntax tree. -/
def Obeys : Tree → Prop
  | .leaf _ => True
  | .node .stream cs => ∀ t ∈ cs, t.isTrivia ∨ t.isNodeOf [.document]
  | .node .document cs => Document cs
  | .node .blockSequence cs => Entries (fun t => t.isNodeOf [.item]) cs
  | .node .item cs => Item cs
  | .node .blockMapping cs => Entries BlockPair cs
  | .node .flowSequence cs => FlowCollection .square cs
  | .node .flowMapping cs => FlowCollection .curly cs
  | .node .blockLiteral cs => BlockLiteral cs
  | .node .quotedLiteral cs => ∃ t, cs = [t] ∧ t.isLeafOf .quoted
  | .node .pair _ | .node .key _ => True
  | .node k cs =>
    k ∈ [Kind.literal, .anchor, .tag, .aliasNode, .error, .blockLiteralHeader,
      .blockLiteralContent] ∧
      ∀ t ∈ cs, t.isNode = false

def Sound (cs : List Tree) : Prop := ∀ u, EveryOf (fun _ => Obeys) u cs

theorem sound_nil : Sound [] := fun _ => trivial

theorem Sound.append {cs ds : List Tree} (hc : Sound cs) (hd : Sound ds) : Sound (cs ++ ds) :=
  fun u => everyOf_append.2 ⟨hc u, hd _⟩

theorem sound_leaves {cs : List Tree} (h : ∀ t ∈ cs, t.isNode = false) : Sound cs :=
  fun u => everyOf_leaves (fun _ _ => trivial) h u

theorem sound_leaf (t : Token) : Sound [.leaf t] := fun _ => ⟨trivial, trivial⟩

theorem sound_node {k : Kind} {cs : List Tree} (h : Obeys (.node k cs)) (hc : Sound cs) :
    Sound [.node k cs] :=
  fun u => ⟨⟨h, hc u⟩, trivial⟩

theorem sound_tokens {k : Kind} {cs : List Tree}
    (hk : k ∈ [Kind.literal, .anchor, .tag, .aliasNode, .error, .blockLiteralHeader,
      .blockLiteralContent])
    (h : ∀ t ∈ cs, t.isNode = false) : Sound [.node k cs] := by
  refine sound_node ?_ (sound_leaves h)
  simp only [List.mem_cons, List.not_mem_nil, or_false] at hk
  rcases hk with rfl | rfl | rfl | rfl | rfl | rfl | rfl <;> exact ⟨by decide, h⟩

structure Consists (P : Tree → Prop) (cs : List Tree) : Prop where
  each : ∀ t ∈ cs, P t
  sound : Sound cs

section Consists

variable {P : Tree → Prop} {cs ds : List Tree}

theorem consists_nil : Consists P [] := ⟨by simp, sound_nil⟩

theorem consists_singleton {t : Tree} (h : P t) (ht : Sound [t]) : Consists P [t] := by
  refine ⟨?_, ht⟩
  intro u hu
  rw [List.mem_singleton.1 hu]
  exact h

theorem Consists.append (hc : Consists P cs) (hd : Consists P ds) : Consists P (cs ++ ds) := by
  refine ⟨?_, hc.sound.append hd.sound⟩
  intro t h
  rcases List.mem_append.1 h with h | h
  · exact hc.each t h
  · exact hd.each t h

end Consists

structure Fills (values others : List Kind) (n m : Nat) (cs : List Tree) : Prop extends
    Content values others n m cs where
  sound : Sound cs

section Fills

variable {vs os : List Kind} {n n' m m' : Nat} {cs ds : List Tree}

theorem fills_nil : Fills vs os 0 0 [] :=
  ⟨⟨by simp, by simp, by simp⟩, sound_nil⟩

theorem Fills.append (hc : Fills vs os n m cs) (hd : Fills vs os n' m' ds) :
    Fills vs os (n + n') (m + m') (cs ++ ds) := by
  refine ⟨⟨?_, ?_, ?_⟩, hc.sound.append hd.sound⟩
  · intro t ht
    rcases List.mem_append.1 ht with ht | ht
    · exact hc.kinds t ht
    · exact hd.kinds t ht
  · rw [List.countP_append]
    exact Nat.add_le_add hc.values hd.values
  · rw [List.countP_append]
    exact Nat.add_le_add hc.colons hd.colons

theorem Fills.mono (hc : Fills vs os n m cs) (hn : n ≤ n') (hm : m ≤ m') : Fills vs os n' m' cs :=
  ⟨⟨hc.kinds, Nat.le_trans hc.values hn, Nat.le_trans hc.colons hm⟩, hc.sound⟩

theorem fills_trivia (h : ∀ t ∈ cs, t.isTrivia) : Fills vs os 0 0 cs := by
  have hleaf (t : Tree) (ht : t ∈ cs) : ∃ x, t = .leaf x ∧ x.kind.isTrivia := by
    cases t with
    | leaf x => exact ⟨x, rfl, h _ ht⟩
    | node k cs => exact absurd (h _ ht) (by simp [isTrivia])
  have hv : cs.countP (isNodeOf vs) = 0 := by
    apply List.countP_eq_zero.2
    intro t ht
    obtain ⟨x, rfl, -⟩ := hleaf t ht
    simp [isNodeOf]
  have hc : cs.countP (isLeafOf .colon) = 0 := by
    apply List.countP_eq_zero.2
    intro t ht hc
    obtain ⟨x, rfl, hx⟩ := hleaf t ht
    simp only [isLeafOf, decide_eq_true_eq] at hc
    simp [hc, Kind.isTrivia] at hx
  refine ⟨⟨fun t ht => .inl (h t ht), Nat.le_of_eq hv, Nat.le_of_eq hc⟩,
    sound_leaves fun t ht => ?_⟩
  obtain ⟨x, rfl, -⟩ := hleaf t ht
  rfl

theorem fills_colon {t : Token} (h : t.kind = .colon) : Fills vs os 0 1 [.leaf t] := by
  refine ⟨⟨?_, by simp [isNodeOf], List.countP_le_length⟩, sound_leaves (by simp [isNode])⟩
  simp [isLeafOf, h]

theorem fills_value {t : Tree} (h : t.isNodeOf vs = true) (ht : Sound [t]) :
    Fills vs os 1 0 [t] := by
  cases t with
  | leaf t => simp [isNodeOf] at h
  | node k cs => exact ⟨⟨by simp [h], List.countP_le_length, by simp [isLeafOf]⟩, ht⟩

theorem fills_other {k : Kind} {cs : List Tree} (h : k ∈ os) (hv : k ∉ vs)
    (ht : Sound [.node k cs]) :
    Fills vs os 0 0 [.node k cs] := by
  refine ⟨⟨?_, ?_, by simp [isLeafOf]⟩, ht⟩
  · simp [isNodeOf, h]
  · simp [isNodeOf, hv]

end Fills

end Schema

end LosslessYaml
