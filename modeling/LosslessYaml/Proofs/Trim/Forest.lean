import LosslessYaml.Proofs.Grammar.Separator

/-! The two ends of the nodes of a syntax tree. A node starts with a token that is no trivia, but for a few that its
parent tells, and its last line is no blank line. Only a node that ends with a block scalar ends with trivia. -/

namespace LosslessYaml

namespace Token

def StartsBare (ts : List Token) : Prop := ∃ t us, ts = t :: us ∧ t.kind.isTrivia = false

theorem StartsBare.append {ts : List Token} (h : StartsBare ts) (us : List Token) : StartsBare (ts ++ us) := by
  obtain ⟨t, vs, rfl, ht⟩ := h
  exact ⟨t, vs ++ us, rfl, ht⟩

end Token

namespace Tree

inductive EndsIn (k : Kind) : Tree → Prop
  | here (cs : List Tree) : EndsIn k (.node k cs)
  | last (k' : Kind) (cs : List Tree) {t : Tree} : EndsIn k t → EndsIn k (.node k' (cs ++ [t]))

end Tree

namespace Trim

open LosslessYaml.Tree
open Token (StartsBare EndsBare EndsFilled gapAhead)

/-- The last line of a forest is not blank, and only a block scalar at its end lets it end with trivia. -/
structure Ends (cs : List Tree) : Prop where
  filled : EndsFilled (leavesOf cs)
  bare : EndsBare (leavesOf cs) ∨ ∃ ds t, cs = ds ++ [t] ∧ t.EndsIn .blockLiteral

section Ends

variable {cs : List Tree}

theorem ends_of_bare (h : EndsBare (leavesOf cs)) : Ends cs := ⟨h.filled, .inl h⟩

theorem Ends.behind (h : Ends cs) (ds : List Tree) : Ends (ds ++ cs) := by
  constructor
  · rw [leavesOf_append]
    exact h.filled.behind _
  · rcases h.bare with hbare | ⟨es, t, rfl, ht⟩
    · rw [leavesOf_append]
      exact .inl (hbare.behind _)
    · exact .inr ⟨ds ++ es, t, (List.append_assoc ds es [t]).symm, ht⟩

theorem Ends.ne_nil (h : Ends cs) : cs ≠ [] := by
  rintro rfl
  exact h.filled.ne_nil rfl

theorem leavesOf_node (k : Kind) (cs : List Tree) : leavesOf [.node k cs] = leavesOf cs := by
  rw [leavesOf, leaves, leavesOf, List.append_nil]

theorem Ends.node (h : Ends cs) (k : Kind) : Ends [.node k cs] := by
  refine ⟨leavesOf_node k cs ▸ h.filled, ?_⟩
  rcases h.bare with hbare | ⟨ds, t, rfl, ht⟩
  · exact .inl (leavesOf_node k cs ▸ hbare)
  · exact .inr ⟨[], _, rfl, .last k ds ht⟩

end Ends

/-- The kinds of a node, of one of its children, and of the child behind that one where it starts with a blank. -/
def strayKinds : List (Kind × Kind × Kind) :=
  [(.pair, .anchor, .literal), (.pair, .tag, .literal), (.key, .quotedLiteral, .error), (.key, .flowSequence, .error),
    (.key, .flowMapping, .error)]

/-- A blank and what it is in front of. Under a pair this is a colon that a gap follows. -/
def StartsBlank (k : Kind) (ts : List Token) : Prop :=
  ∃ w c us, ts = w :: c :: us ∧ w.kind = .whitespace ∧ c.kind.isTrivia = false ∧
    (k = .pair → c.kind = .colon ∧ gapAhead us = true)

def literalParts : List Kind := [.blockLiteralHeader, .blockLiteralContent]

def Tidy (t : Tree) : Prop := t.isNode = true → StartsBare t.leaves ∧ t.kind ∉ literalParts

/-- The other children that a node of kind `k` has behind those in front. -/
inductive Exempt : Kind → List Tree → Tree → Prop
  | header {cs : List Tree} : StartsBare (leavesOf cs) → Exempt .blockLiteral [] (.node .blockLiteralHeader cs)
  | empty {cs : List Tree} : Exempt .blockLiteral [.node .blockLiteralHeader cs] (.node .blockLiteralContent [])
  | content {front cs : List Tree} {t : Token} : t.kind = .newline → EndsFilled (leavesOf cs) →
      Exempt .blockLiteral (front ++ [.leaf t]) (.node .blockLiteralContent cs)
  | stray {k : Kind} {front : List Tree} {e t : Tree} : (k, e.kind, t.kind) ∈ strayKinds → StartsBlank k t.leaves →
      Exempt k (front ++ [e]) t

section Exempt

variable {k : Kind} {front : List Tree} {t : Tree}

theorem Exempt.header_of_empty (h : Exempt k front (.node .blockLiteralContent [])) :
    ∃ cs, front = [.node .blockLiteralHeader cs] := by
  cases h with
  | empty => exact ⟨_, rfl⟩
  | content _ hfilled => exact absurd rfl hfilled.ne_nil
  | stray _ hblank =>
    obtain ⟨w, c, us, hleaves, -⟩ := hblank
    cases hleaves

theorem Exempt.blockLiteral_of_part (h : Exempt k front t) (ht : t.kind ∈ literalParts) : k = .blockLiteral := by
  cases h with
  | header _ => rfl
  | empty => rfl
  | content _ _ => rfl
  | stray hkinds _ =>
    simp only [strayKinds, List.mem_cons, Prod.mk.injEq, List.not_mem_nil, or_false] at hkinds
    rcases hkinds with h | h | h | h | h <;> rw [h.2.2] at ht <;> exact absurd ht (by decide)

theorem Exempt.cases_trivia (h : Exempt k front t) (hne : t.leaves ≠ []) (hs : ¬ StartsBare t.leaves) :
    t.kind = .blockLiteralContent ∧ (∃ ds x, front = ds ++ [.leaf x] ∧ x.kind = .newline) ∨
      ∃ ds e, front = ds ++ [e] ∧ (k, e.kind, t.kind) ∈ strayKinds ∧ StartsBlank k t.leaves := by
  cases h with
  | header hstart => exact absurd hstart hs
  | empty => exact absurd rfl hne
  | content hx _ => exact .inl ⟨rfl, _, _, rfl, hx⟩
  | stray hkinds hblank => exact .inr ⟨_, _, rfl, hkinds, hblank⟩

end Exempt

/-- The children of a node of kind `k` behind those in front. -/
def Row (k : Kind) : List Tree → List Tree → Prop
  | _, [] => True
  | front, t :: ts => (Tidy t ∨ Exempt k front t) ∧ Row k (front ++ [t]) ts

theorem row_append {k : Kind} {front cs ds : List Tree} :
    Row k front (cs ++ ds) ↔ Row k front cs ∧ Row k (front ++ cs) ds := by
  induction cs generalizing front with
  | nil => simp [Row]
  | cons t cs ih => simp [Row, ih, and_assoc]

theorem row_of_tidy {k : Kind} {front cs : List Tree} (h : ∀ t ∈ cs, Tidy t) : Row k front cs := by
  induction cs generalizing front with
  | nil => trivial
  | cons t cs ih => exact ⟨.inl (h t List.mem_cons_self), ih fun u hu => h u (List.mem_cons_of_mem t hu)⟩

theorem Row.split {k : Kind} {ds es : List Tree} {t : Tree} (h : Row k [] (ds ++ t :: es)) : Tidy t ∨ Exempt k ds t :=
  (row_append.1 h).2.1

structure Neat (k : Kind) (cs : List Tree) : Prop where
  row : Row k [] cs
  filled : k ≠ .stream → EndsFilled (leavesOf cs) ∨ k = .blockLiteralContent ∧ cs = []
  bare : k ∉ .stream :: literalParts → EndsBare (leavesOf cs) ∨ (Tree.node k cs).EndsIn .blockLiteral

def NeatPart : Tree → Prop
  | .leaf _ => True
  | .node k cs => Neat k cs

/-- A forest whose nodes start with tokens that are no trivia, all that is below them being neat. -/
structure Trimmed (cs : List Tree) : Prop where
  parts : ∀ u, EveryOf (fun _ => NeatPart) u cs
  tidy : ∀ t ∈ cs, Tidy t

/-- A forest of children of a node of kind `k`, behind those in front. -/
structure Rowed (k : Kind) (front cs : List Tree) : Prop where
  parts : ∀ u, EveryOf (fun _ => NeatPart) u cs
  row : Row k front cs

/-- A trimmed forest that ends as a node does. -/
structure Whole (cs : List Tree) : Prop extends Trimmed cs where
  ends : Ends cs

structure Loose (cs : List Tree) : Prop extends Trimmed cs where
  ends : cs = [] ∨ Ends cs

section Forests

variable {k : Kind} {front cs ds : List Tree}

theorem trimmed_nil : Trimmed [] := ⟨fun _ => trivial, fun _ h => absurd h List.not_mem_nil⟩

theorem trimmed_leaves (h : ∀ t ∈ cs, t.isNode = false) : Trimmed cs :=
  ⟨everyOf_leaves (fun _ _ => trivial) h, fun t ht hn => absurd hn (by rw [h t ht]; decide)⟩

theorem Trimmed.append (hc : Trimmed cs) (hd : Trimmed ds) : Trimmed (cs ++ ds) := by
  refine ⟨fun u => everyOf_append.2 ⟨hc.parts u, hd.parts _⟩, fun t ht => ?_⟩
  rcases List.mem_append.1 ht with ht | ht
  · exact hc.tidy t ht
  · exact hd.tidy t ht

theorem Trimmed.rowed (h : Trimmed cs) (k : Kind) (front : List Tree) : Rowed k front cs :=
  ⟨h.parts, row_of_tidy h.tidy⟩

theorem Rowed.append (hc : Rowed k front cs) (hd : Rowed k (front ++ cs) ds) : Rowed k front (cs ++ ds) :=
  ⟨fun u => everyOf_append.2 ⟨hc.parts u, hd.parts _⟩, row_append.2 ⟨hc.row, hd.row⟩⟩

theorem Whole.loose (h : Whole cs) : Loose cs := ⟨h.toTrimmed, .inr h.ends⟩

theorem loose_nil : Loose [] := ⟨trimmed_nil, .inl rfl⟩

theorem Trimmed.before (hc : Trimmed cs) (hd : Whole ds) : Whole (cs ++ ds) :=
  ⟨hc.append hd.toTrimmed, hd.ends.behind cs⟩

/-- Where a forest may be empty, what is in front of it has to end well. -/
theorem ends_append (hc : Ends cs) (hd : ds = [] ∨ Ends ds) : Ends (cs ++ ds) := by
  rcases hd with rfl | hd
  · rwa [List.append_nil]
  · exact hd.behind cs

theorem Whole.append (hc : Whole cs) (hd : Loose ds) : Whole (cs ++ ds) :=
  ⟨hc.toTrimmed.append hd.toTrimmed, ends_append hc.ends hd.ends⟩

theorem optional_ends_append (hc : cs = [] ∨ Ends cs) (hd : ds = [] ∨ Ends ds) : cs ++ ds = [] ∨ Ends (cs ++ ds) := by
  rcases hc with rfl | hc
  · rwa [List.nil_append]
  · exact .inr (ends_append hc hd)

theorem Loose.append (hc : Loose cs) (hd : Loose ds) : Loose (cs ++ ds) :=
  ⟨hc.toTrimmed.append hd.toTrimmed, optional_ends_append hc.ends hd.ends⟩

theorem whole_leaf {t : Token} (h : t.kind.isTrivia = false) : Whole [.leaf t] :=
  ⟨trimmed_leaves fun u hu => by rw [List.mem_singleton.1 hu]; rfl, ends_of_bare (Token.endsBare_singleton h)⟩

theorem neat_of_ends (hr : Row k [] cs) (he : Ends cs) : Neat k cs := by
  refine ⟨hr, fun _ => .inl he.filled, fun _ => he.bare.imp_right ?_⟩
  rintro ⟨ds, t, rfl, ht⟩
  exact .last k ds ht

theorem whole_node (hk : k ∉ literalParts) (hc : Rowed k [] cs) (hs : StartsBare (leavesOf cs)) (he : Ends cs) :
    Whole [.node k cs] := by
  refine ⟨⟨fun u => ⟨⟨neat_of_ends hc.row he, hc.parts u⟩, trivial⟩, fun t ht _ => ?_⟩, he.node k⟩
  rw [List.mem_singleton.1 ht]
  exact ⟨hs, hk⟩

theorem rowed_stray {k' : Kind} {e : Tree} (hkinds : (k, e.kind, k') ∈ strayKinds)
    (hblank : StartsBlank k (leavesOf cs)) (hc : Trimmed cs) (he : Ends cs) :
    Rowed k (front ++ [e]) [.node k' cs] :=
  ⟨fun u => ⟨⟨neat_of_ends (row_of_tidy hc.tidy) he, hc.parts u⟩, trivial⟩, .inr (.stray hkinds hblank), trivial⟩

end Forests

end Trim

namespace Grammar

open Rule Trim LosslessYaml.Tree
open Token (StartsBare)

structure Ready (ts : List Placed) : Prop where
  bare : (next ts).isTrivia = false
  nonempty : ts ≠ []

section Ready

variable {ts : List Placed} {r : Rule} {k : Kind}

theorem Fresh.ready (h : Fresh ts) : Ready ts := ⟨h.bare, h.nonempty⟩

theorem ready_pastTrivia (h : pastTrivia ts ≠ []) : Ready (pastTrivia ts) := ⟨isTrivia_next_pastTrivia h, h⟩

theorem ready_of_next (h : next ts = k) (hk : k ≠ .eof) (ht : k.isTrivia = false) : Ready ts :=
  ⟨h ▸ ht, ne_nil_of_next h hk⟩

theorem Ready.starts (hr : Ready ts) (hl : Lossless r) (he : leavesOf (r ts).trees ≠ []) :
    StartsBare (leavesOf (r ts).trees) := by
  obtain ⟨us, hus, hleaves⟩ := hl ts
  rw [hleaves] at he ⊢
  cases us with
  | nil => exact absurd rfl he
  | cons t us =>
    have hbare := hr.bare
    rw [hus] at hbare
    exact ⟨t.token, us.map Placed.token, rfl, hbare⟩

theorem whole_within (hr : Ready ts) (hl : Lossless r) (hk : k ∉ literalParts) (hc : Rowed k [] (r ts).trees)
    (he : Ends (r ts).trees) : Whole (r.within k ts).trees :=
  whole_node hk hc (hr.starts hl he.filled.ne_nil) he

theorem trimmed_flat (hf : Flat r) (ts : List Placed) : Trimmed (r ts).trees := trimmed_leaves (hf ts)

theorem whole_token (hr : Ready ts) : Whole (token ts).trees := by
  cases ts with
  | nil => exact absurd rfl hr.nonempty
  | cons t ts => exact whole_leaf hr.bare

theorem whole_afterTrivia (h : Whole (r (pastTrivia ts)).trees) : Whole (trivia.andThen r ts).trees := by
  rw [← rest_trivia] at h
  exact (trimmed_flat (flat_upTo _) ts).before h

theorem loose_loop {test : List Placed → Bool} (hl : Lossless r)
    (hr : ∀ us, Spread us → test us = true → Whole (r us).trees) (hs : Spread ts) : Loose (loop test r ts).trees :=
  trees_loop_along (A := fun _ => Spread) (F := fun _ => Loose) (fun _ => loose_nil) (fun _ _ _ => Loose.append)
    (fun _ _ h => h.rest hl) (fun _ us hus ht => (hr us hus ht).loose) [] ts hs

end Ready

end Grammar

theorem Trim.Whole.within {r : Rule} {ts : List Placed} {k : Kind} (h : Whole (r ts).trees) (hr : Grammar.Ready ts)
    (hl : r.Lossless) (hk : k ∉ literalParts) : Whole (r.within k ts).trees :=
  Grammar.whole_within hr hl hk (h.rowed k []) h.ends

end LosslessYaml
