import LosslessYaml.Proofs.Layout.Block
import LosslessYaml.Proofs.Layout.Scalar
import LosslessYaml.Proofs.Schema.Block

namespace LosslessYaml

namespace Layout

open LosslessYaml.Tree

def Deepens (m : Nat) (t : Tree) : Prop :=
  (∀ x ∈ t.leaves, x.Scanned) → ∀ a b, t.text = a ++ '\n' :: b →
    Text.LineReaches m b ∨ Token.FeedInQuote t.leaves a

def ScalarDeepens (m : Nat) : Tree → Prop
  | .node .literal cs => Deepens m (.node .literal cs)
  | .node .blockLiteral cs => ∀ c ∈ cs, c.isNodeOf [.blockLiteralContent] = true → Deepens m c
  | _ => True

def PairDeepens (u : List Char) (t : Tree) : Prop :=
  t.isNodeOf [.pair] = true → ∀ c ∈ t.children, ScalarDeepens (Text.column u + 1) c

def EntryDeepens (u : List Char) : Tree → Prop
  | .node .item cs => ∀ c ∈ cs, ScalarDeepens (Text.column u + 1) c
  | .node .blockMapping cs => Each PairDeepens u cs
  | _ => True

/-- A forest behind `u` whose entries are left of their values, and whose own scalars reach column `m`. -/
structure Kept (m : Nat) (u : List Char) (cs : List Tree) : Prop where
  entries : EveryOf EntryDeepens u cs
  scalars : ∀ t ∈ cs, ScalarDeepens m t

section Forests

variable {m : Nat} {u : List Char} {cs ds : List Tree}

theorem kept_nil : Kept m u [] := ⟨trivial, by simp⟩

theorem Kept.append (hc : Kept m u cs) (hd : Kept m (u ++ forestText cs) ds) :
    Kept m u (cs ++ ds) := by
  refine ⟨everyOf_append.2 ⟨hc.entries, hd.entries⟩, fun t ht => ?_⟩
  rcases List.mem_append.1 ht with ht | ht
  · exact hc.scalars t ht
  · exact hd.scalars t ht

theorem entryDeepens_of_not_mem {k : Kind} (h : k ∉ [Kind.blockMapping, .item]) (u : List Char)
    (cs : List Tree) : EntryDeepens u (.node k cs) := by
  simp only [List.mem_cons, List.not_mem_nil, or_false, not_or] at h
  unfold EntryDeepens
  split <;> simp_all

theorem scalarDeepens_of_not {t : Tree} (h : t.isNodeOf [.literal, .blockLiteral] = false) :
    ScalarDeepens m t := by
  unfold ScalarDeepens
  split <;> simp_all [isNodeOf]

theorem Bare.entries (hc : Bare cs) (u : List Char) : EveryOf EntryDeepens u cs := by
  refine (hc u).imp fun v t ht => ?_
  cases t with
  | leaf t => trivial
  | node k cs =>
    refine entryDeepens_of_not_mem (fun hk => of_decide_eq_false ht ?_) v cs
    exact List.mem_cons_of_mem _ hk

theorem Bare.kept (hc : Bare cs) (hs : ∀ t ∈ cs, ScalarDeepens m t) (u : List Char) : Kept m u cs :=
  ⟨hc.entries u, hs⟩

theorem scalars_of_fills (os : List Kind) {n : Nat} (h : Schema.Fills Schema.valueKinds os 0 n cs) :
    ∀ t ∈ cs, ScalarDeepens m t := by
  intro t ht
  have hv := List.countP_eq_zero.1 (Nat.le_zero.1 h.values) t ht
  refine scalarDeepens_of_not ?_
  cases t with
  | leaf t => rfl
  | node k cs =>
    apply decide_eq_false
    intro hk
    apply hv
    simp only [List.mem_cons, List.not_mem_nil, or_false] at hk
    rcases hk with rfl | rfl <;> rfl

theorem Kept.node {k : Kind} (he : EntryDeepens u (.node k cs)) (hc : EveryOf EntryDeepens u cs)
    (hk : k ∉ [Kind.literal, .blockLiteral]) : Kept m u [.node k cs] := by
  refine ⟨⟨⟨he, hc⟩, trivial⟩, fun t ht => ?_⟩
  rw [List.mem_singleton.1 ht]
  exact scalarDeepens_of_not (decide_eq_false hk)

end Forests

end Layout

namespace Grammar

open Rule Layout Schema LosslessYaml.Tree
open Placed (Stands)

section Scalars

variable {u : List Char} {ts : List Placed} {m : Nat}

theorem kept_trivia (m : Nat) (u : List Char) (ts : List Placed) : Kept m u (trivia ts).trees :=
  (plain_trivia ts).kept (scalars_of_fills remarkKinds (fills_triviaRule ts)) u

theorem kept_blank (m : Nat) (u : List Char) (ts : List Placed) : Kept m u (blank ts).trees :=
  (plain_blank ts).kept (scalars_of_fills remarkKinds (fills_blank ts)) u

theorem kept_restOfLine (m : Nat) (u : List Char) (ts : List Placed) :
    Kept m u (restOfLine ts).trees :=
  (plain_restOfLine ts).kept (scalars_of_fills _ (fills_restOfLine not_mem_valueKinds ts)) u

theorem kept_properties (m : Nat) (u : List Char) (ts : List Placed) :
    Kept m u (properties ts).trees :=
  (plain_properties ts).kept (scalars_of_fills _ (fills_properties not_mem_valueKinds ts)) u

theorem kept_leaves {r : Rule} (hr : Flat r) (m : Nat) (u : List Char) (ts : List Placed) :
    Kept m u (r ts).trees := by
  refine (hr.plain ts).kept (fun t ht => ?_) u
  cases t with
  | leaf t => trivial
  | node k cs => exact absurd (hr ts _ ht) (by simp [isNode])

theorem deepens_of_indented {k : Kind} (us vs : List Placed) {cs : List Tree}
    (h : Stands u (us ++ vs)) (hl : leavesOf cs = us.map Placed.token) (hi : Indented m us) :
    Deepens m (.node k cs) := by
  intro hr a b hab
  rw [text_node, forestText, hl] at hab
  rw [leaves, hl] at hr ⊢
  exact lineReaches_of_indented (fun t ht => hr _ (List.mem_map_of_mem ht))
    (Placed.behind_left h.behind) hi hab

theorem kept_scalar {r : Rule} {k : Kind} (hr : Plain (r.within k)) (u : List Char)
    (hd : ScalarDeepens m (.node k (r ts).trees)) : Kept m u (r.within k ts).trees := by
  refine (hr ts).kept (fun t ht => ?_) u
  rw [List.mem_singleton.1 ht]
  exact hd

theorem kept_plainScalar (h : Stands u ts) (hk : next ts ≠ .newline) :
    Kept m u (plainScalar m ts).trees := by
  have hf : Flat (token.andThen (plainRest m false)) := flat_token.andThen (flat_plainRest m false)
  refine kept_scalar (hf.plain.within (by decide)) u ?_
  cases ts with
  | nil => exact deepens_of_indented [] [] h rfl indented_nil
  | cons t ts =>
    obtain ⟨us, hus, hleaves, hi, -⟩ := @indented_plainRest m ts false nofun
    have h' : Stands u (t :: us ++ (plainRest m false ts).rest) := by
      rw [List.cons_append, ← hus]
      exact h
    exact deepens_of_indented _ _ h' (congrArg (t.token :: ·) hleaves)
      (hi.cons fun hn => absurd hn hk)

theorem content_blockLiteralContent (h : Stands u ts) :
    ∀ c ∈ (blockLiteralContent m ts).trees, c.isNodeOf [.blockLiteralContent] = true →
      Deepens m c := by
  intro c hc hk
  rw [blockLiteralContent] at hc
  split at hc
  · next n hn =>
    cases ts with
    | nil =>
      rw [List.tail_nil, contentLength?_nil] at hn
      cases hn
    | cons t ts =>
      simp only [Rule.andThen, Rule.within, token, List.mem_append, List.mem_singleton] at hc
      rcases hc with rfl | rfl
      · simp [isNodeOf] at hk
      · have hts : Stands (u ++ t.text) (ts.take n ++ ts.drop n) := by
          rw [List.take_append_drop]
          exact ⟨h.behind.2.2, h.lexed.2.2⟩
        obtain ⟨us, hus, hleaves⟩ := lossless_tokens n ts
        obtain rfl : us = ts.take n :=
          List.append_cancel_right (hus.symm.trans (List.take_append_drop n ts).symm)
        exact deepens_of_indented _ _ hts hleaves (indented_content hn).1
  · rw [Rule.within, List.mem_singleton] at hc
    subst hc
    exact deepens_of_indented [] ts h rfl indented_nil

theorem kept_blockLiteral (h : Stands u ts) : Kept m u (blockLiteral m ts).trees := by
  refine kept_scalar (plain_blockLiteral m) u fun c hc hk => ?_
  simp only [Rule.andThen, Rule.within, List.mem_append, List.mem_singleton] at hc
  rcases hc with rfl | hc
  · simp [isNodeOf] at hk
  · have hh : Lossless ((upTo fun ts => next ts = .newline).within .blockLiteralHeader) :=
      (lossless_upTo _).within _
    exact content_blockLiteralContent (stands_rest hh h) c hc hk

theorem kept_flowNode {b : Bracket} (hk : next ts = b.opener) : Kept m u (flowNode ts).trees := by
  obtain ⟨cs, hcs⟩ : ∃ cs, (flowNode ts).trees = [.node b.collection cs] := by
    rw [flowNode, flowNodeOf]
    cases b with
    | square => rw [hk]; exact ⟨_, rfl⟩
    | curly => rw [hk]; exact ⟨_, rfl⟩
  refine (plain_flowNode ts).kept (fun t ht => ?_) u
  rw [hcs, List.mem_singleton] at ht
  subst ht
  exact scalarDeepens_of_not (by cases b <;> rfl)

theorem kept_inlineValue (h : Stands u ts) (hk : next ts ≠ .newline) :
    Kept m u (inlineValue m ts).trees := by
  have he {r : Rule} (hr : Plain r) {k : Kind}
      (hk : k ∈ [Kind.quotedLiteral, .error, .aliasNode]) : Kept m u (r.within k ts).trees := by
    simp only [List.mem_cons, List.not_mem_nil, or_false] at hk
    rcases hk with rfl | rfl | rfl <;>
      exact kept_scalar (hr.within (by decide)) u (scalarDeepens_of_not rfl)
  rw [inlineValue]
  split
  · exact kept_blockLiteral h
  · exact kept_blockLiteral h
  · next hb => exact kept_flowNode (b := .square) hb
  · next hb => exact kept_flowNode (b := .curly) hb
  · exact he flat_token.plain (by decide)
  · exact he flat_token.plain (by decide)
  · exact he flat_token.plain (by decide)
  · exact he flat_token.plain (by decide)
  · split
    · exact he flat_name.plain (by decide)
    · exact kept_plainScalar h hk

end Scalars

theorem next_pastTrivia_ne_newline (ts : List Placed) : next (pastTrivia ts) ≠ .newline := by
  by_cases hn : pastTrivia ts = []
  · simp [hn]
  · intro hk
    have ht := isTrivia_next_pastTrivia hn
    rw [hk] at ht
    cases ht

theorem next_of_not_atLineEnd {ts : List Placed} (h : atLineEnd ts = false) :
    next ts ≠ .newline := by
  intro hk
  rw [atLineEnd_of_newline hk] at h
  cases h

section Block

variable {node : Nat → Rule} (hl : ∀ min, Lossless (node min))
  (hn : ∀ min u ts, Stands u ts → next ts ≠ .newline → Kept min u (node min ts).trees)
  {u : List Char} {ts : List Placed}

theorem kept_andThen {r s : Rule} {m : Nat} (hl : Lossless r) (h : Stands u ts)
    (hr : Kept m u (r ts).trees)
    (hs : ∀ v, Stands v (r ts).rest → Kept m v (s (r ts).rest).trees) :
    Kept m u (r.andThen s ts).trees :=
  hr.append (hs _ (stands_rest hl h))

theorem kept_trivia_then {r : Rule} {m : Nat} (h : Stands u ts)
    (hr : ∀ v us, Stands v us → next us ≠ .newline → Kept m v (r us).trees) :
    Kept m u (trivia.andThen r ts).trees := by
  refine kept_andThen lossless_trivia h (kept_trivia m u ts) fun v hv => ?_
  rw [rest_trivia] at hv ⊢
  exact hr v _ hv (next_pastTrivia_ne_newline ts)

structure Rows (u : List Char) (cs : List Tree) : Prop where
  entries : EveryOf EntryDeepens u cs
  pairs : Each PairDeepens u cs

theorem Rows.append {cs ds : List Tree} (hc : Rows u cs) (hd : Rows (u ++ forestText cs) ds) :
    Rows u (cs ++ ds) :=
  ⟨everyOf_append.2 ⟨hc.entries, hd.entries⟩, each_append.2 ⟨hc.pairs, hd.pairs⟩⟩

theorem rows_trivia (u : List Char) (ts : List Placed) : Rows u (trivia ts).trees := by
  refine ⟨(kept_trivia 0 u ts).entries, ?_⟩
  exact (everyOf_leaves (P := PairDeepens) (fun _ _ h => by simp [isNodeOf] at h) (flat_upTo _ ts)
    u).each.imp fun _ _ => Every.self

theorem rows_of_entries {r : Rule} {test : List Placed → Bool} {col : Nat} (hl : Lossless r)
    (hr : ∀ u ts, Stands u ts → column ts = col → test ts = true → Rows u (r ts).trees)
    (h : Stands u ts) (hc : column ts = col) (ht : test ts = true) :
    Rows u (r.andThen (loop (entryFollows col test) (trivia.andThen r)) ts).trees := by
  refine (hr u ts h hc ht).append ?_
  refine loop_behind (lossless_trivia.andThen hl) (fun _ => ⟨trivial, trivial⟩)
    (fun _ _ _ => Rows.append) (fun v us hv hf => ?_) (stands_rest hl h)
  simp only [entryFollows, Bool.and_eq_true, decide_eq_true_eq] at hf
  refine (rows_trivia v us).append ?_
  have hrest := stands_rest lossless_trivia hv
  rw [rest_trivia] at hrest ⊢
  exact hr _ _ hrest hf.1.1 hf.2

include hn

theorem kept_deeper (col : Nat) (h : Stands u ts) :
    Kept (col + 1) u (deeper node col ts).trees :=
  trees_when kept_nil fun _ => kept_trivia_then h (hn _)

include hl

theorem kept_itemValue (col : Nat) (h : Stands u ts) :
    Kept (col + 1) u (itemValue node col ts).trees := by
  refine trees_branch (fun _ => kept_deeper hn col h) fun he => ?_
  refine kept_andThen lossless_blank h (kept_blank _ u ts) fun v hv => ?_
  exact kept_andThen (hl _) hv (hn _ v _ hv (next_rest_blank he))
    fun w _ => kept_restOfLine _ w _

theorem kept_marked (col : Nat) (h : Stands u ts) :
    Kept (col + 1) u (token.andThen (itemValue node col) ts).trees :=
  kept_andThen lossless_token h (kept_leaves flat_token _ u ts)
    fun _ hv => kept_itemValue hl hn col hv

theorem rows_item {col : Nat} (h : Stands u ts) (hc : column ts = col) (ht : atDash ts = true) :
    Rows u (item node col ts).trees := by
  have hk := kept_marked hl hn col h
  have hu : Text.column u = col := (column_of_stands h (ne_nil_of_atDash ht)).trans hc
  refine ⟨⟨⟨?_, hk.entries⟩, trivial⟩, fun hp => ?_, trivial⟩
  · rw [← hu] at hk ⊢
    exact hk.scalars
  · simp [isNodeOf] at hp

theorem kept_sequence {m col : Nat} (h : Stands u ts) (hc : column ts = col)
    (ht : atDash ts = true) :
    Kept m u (sequence node col ts).trees := by
  have hr := rows_of_entries (lossless_item hl col) (fun v us => rows_item hl hn) h hc ht
  exact .node trivial hr.entries (by decide)

theorem kept_pairValueBelow (col : Nat) (h : Stands u ts) :
    Kept (col + 1) u (pairValueBelow node col ts).trees := by
  refine trees_branch (fun ht => ?_) fun _ => kept_deeper hn col h
  simp only [atFlushSequence, Bool.and_eq_true, decide_eq_true_eq] at ht
  refine kept_andThen lossless_trivia h (kept_trivia _ u ts) fun v hv => ?_
  rw [rest_trivia] at hv ⊢
  exact kept_sequence hl hn hv ht.1 ht.2

theorem kept_pairValue (col : Nat) (h : Stands u ts) :
    Kept (col + 1) u (pairValue node col ts).trees := by
  refine trees_branch (fun _ => kept_pairValueBelow hl hn col h) fun _ => ?_
  refine kept_andThen lossless_blank h (kept_blank _ u ts) fun v hv => ?_
  refine kept_andThen lossless_properties hv (kept_properties _ v _) fun w hw => ?_
  refine trees_branch (fun _ => kept_pairValueBelow hl hn col hw) fun he => ?_
  exact kept_andThen (lossless_inlineValue _) hw (kept_inlineValue hw (next_of_not_atLineEnd he))
    fun x _ => kept_restOfLine _ x _

theorem kept_pairTail (col : Nat) (h : Stands u ts) :
    Kept (col + 1) u (pairTail node col ts).trees := by
  have ht (test : List Placed → Bool) (v : List Char) (us : List Placed) :
      Kept (col + 1) v (when test token us).trees :=
    trees_when kept_nil fun _ => kept_leaves flat_token _ v us
  refine kept_andThen (lossless_token.when _) h (ht _ u ts) fun v hv => ?_
  exact kept_andThen (lossless_token.when _) hv (ht _ v _) fun w hw => kept_pairValue hl hn col hw

theorem kept_pairParts (col : Nat) (h : Stands u ts) :
    ∃ cs, (pair node col ts).trees = [.node .pair cs] ∧ Kept (col + 1) u cs := by
  refine ⟨_, rfl, trees_branch (fun _ => ?_) fun _ => ?_⟩
  · have hk : Kept (col + 1) u (explicitKey node col ts).trees :=
      .node trivial (kept_marked hl hn col h).entries (by decide)
    refine kept_andThen (lossless_explicitKey hl col) h hk fun v hv => ?_
    refine trees_when kept_nil fun _ => ?_
    exact kept_andThen lossless_trivia hv (kept_trivia _ v _)
      fun w hw => kept_pairTail hl hn col hw
  · have hk : Kept (col + 1) u (when (fun ts => next ts ≠ .colon) key ts).trees :=
      trees_when kept_nil fun _ => (plain_key ts).kept (by simp [key, Rule.within, ScalarDeepens]) u
    exact kept_andThen (lossless_key.when _) h hk fun v hv => kept_pairTail hl hn col hv

theorem rows_pair {col : Nat} (h : Stands u ts) (hc : column ts = col) (ht : atEntry ts = true) :
    Rows u (pair node col ts).trees := by
  have hu : Text.column u = col := (column_of_stands h (ne_nil_of_atEntry ht)).trans hc
  obtain ⟨cs, hcs, hk⟩ := kept_pairParts hl hn col h
  rw [hcs]
  refine ⟨⟨⟨trivial, hk.entries⟩, trivial⟩, fun _ => ?_, trivial⟩
  rw [hu]
  exact hk.scalars

theorem kept_mapping {m col : Nat} (h : Stands u ts) (hc : column ts = col)
    (ht : atEntry ts = true) :
    Kept m u (mapping node col ts).trees := by
  have hr := rows_of_entries (lossless_pair hl col) (fun v us => rows_pair hl hn) h hc ht
  exact .node hr.pairs hr.entries (by decide)

theorem kept_bareNode {min : Nat} (h : Stands u ts) (hk : next ts ≠ .newline) :
    Kept min u (bareNode node min ts).trees := by
  rw [bareNode]
  split
  · next ht => exact kept_sequence hl hn h rfl ht
  · split
    · exact kept_blockLiteral h
    · split
      · next ht => exact kept_mapping hl hn h rfl ht
      · exact kept_inlineValue h hk

theorem kept_blockNodeOf {min : Nat} (h : Stands u ts) (hk : next ts ≠ .newline) :
    Kept min u (blockNodeOf node min ts).trees := by
  refine trees_branch (fun _ => ?_) fun _ => kept_bareNode hl hn h hk
  refine kept_andThen lossless_properties h (kept_properties _ u ts) fun v hv => ?_
  refine trees_branch (fun _ => ?_) fun he => ?_
  · exact trees_when kept_nil fun _ => kept_trivia_then hv (hn _)
  · exact kept_bareNode hl hn hv (next_of_not_atLineEnd he)

end Block

theorem kept_blockNode (min : Nat) {u : List Char} {ts : List Placed} (h : Stands u ts)
    (hk : next ts ≠ .newline) : Kept min u (blockNode min ts).trees :=
  blockNode_induct
    (P := fun min ts p => ∀ u, Stands u ts → next ts ≠ .newline → Kept min u p.trees)
    (fun _ => lossless_skip) (fun _ _ _ _ _ => kept_nil)
    (fun _ hl hn _ _ _ h hk => kept_blockNodeOf hl (fun min u ts => hn min ts u) h hk) min ts u h hk

theorem kept_document {u : List Char} {ts : List Placed} (h : Stands u ts) :
    Kept 0 u (document ts).trees := by
  refine .node trivial (Kept.entries (m := 0) ?_) (by decide)
  refine kept_andThen (lossless_token.when _) h
    (trees_when kept_nil fun _ => kept_leaves flat_token 0 u ts) fun v hv => ?_
  have hl : Lossless (trivia.andThen (blockNode 0)) :=
    lossless_trivia.andThen (lossless_blockNode 0)
  refine kept_andThen (hl.loop _) hv ?_ fun w hw => ?_
  · exact loop_behind hl (fun _ => kept_nil) (fun _ _ _ => Kept.append)
      (fun w us hw _ => kept_trivia_then hw fun _ _ => kept_blockNode 0) hv
  · exact trees_when kept_nil fun _ => kept_trivia_then hw fun x us _ _ =>
      kept_leaves flat_token 0 x us

theorem kept_documents {u : List Char} {ts : List Placed} (h : Stands u ts) :
    Kept 0 u (documents ts).trees := by
  refine kept_andThen lossless_trivia h (kept_trivia 0 u ts) fun v hv => ?_
  refine loop_behind (lossless_document.andThen lossless_trivia) (fun _ => kept_nil)
    (fun _ _ _ => Kept.append) (fun w us hw _ => ?_) hv
  exact kept_andThen lossless_document hw (kept_document hw) fun x _ => kept_trivia 0 x _

end Grammar

end LosslessYaml
