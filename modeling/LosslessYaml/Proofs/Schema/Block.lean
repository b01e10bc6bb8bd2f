import LosslessYaml.Proofs.Schema.Flow
import LosslessYaml.Proofs.Lossless

namespace LosslessYaml

namespace Grammar

open Rule Schema LosslessYaml.Tree

theorem not_mem_valueKinds : ∀ k ∈ remarkKinds, k ∉ valueKinds := by decide

theorem not_mem_inlineKinds : ∀ k ∈ remarkKinds, k ∉ inlineKinds := by decide

theorem mem_valueKinds : ∀ k ∈ inlineKinds, k ∈ valueKinds := by decide

/-- What may stand in an entry of a block collection: remarks, trivia and at most one value. -/
def Value (cs : List Tree) : Prop := Fills valueKinds remarkKinds 1 0 cs

theorem Value.of_fills {cs : List Tree} (h : Fills valueKinds remarkKinds 0 0 cs) : Value cs :=
  h.mono (Nat.zero_le 1) (Nat.le_refl 0)

theorem value_nil : Value [] := .of_fills fills_nil

theorem value_node {ks : List Kind} {cs : List Tree} (h : IsNode ks cs)
    (hk : ∀ k ∈ ks, k ∈ valueKinds) : Value cs :=
  (h.mono hk).fills

theorem Value.after {r s : Rule} {ts : List Placed}
    (h : Fills valueKinds remarkKinds 0 0 (r ts).trees)
    (hs : Value (s (r ts).rest).trees) : Value (r.andThen s ts).trees :=
  h.append hs

theorem Value.before {r s : Rule} {ts : List Placed} (h : Value (r ts).trees)
    (hs : Fills valueKinds remarkKinds 0 0 (s (r ts).rest).trees) : Value (r.andThen s ts).trees :=
  h.append hs

theorem contentLength?_pos {min : Nat} {indent : Option Nat} {ts : List Placed} {n : Nat}
    (h : contentLength? min indent ts = some n) : 0 < n ∧ ts ≠ [] := by
  constructor
  · rw [contentLength?] at h
    split at h
    · split at h
      · cases h
      · obtain ⟨m, -, rfl⟩ := Option.map_eq_some_iff.1 h
        omega
    · next hp =>
      have hl : 0 < (lineOf ts).length := by
        apply List.length_pos_iff.2
        intro hn
        rw [hn] at hp
        cases hp
      simp only at h
      split at h
      · cases h
      · split at h
        · cases h
          exact hl
        · split at h <;> cases h <;> omega
  · rintro rfl
    rw [contentLength?] at h
    simp [lineOf, pastBlank, afterLine] at h

theorem isNode_blockLiteral (min : Nat) (ts : List Placed) :
    IsNode [.blockLiteral] (blockLiteral min ts).trees := by
  have hh : Sound [Tree.node .blockLiteralHeader (upTo (fun ts => next ts = .newline) ts).trees] :=
    sound_tokens (by decide) (flat_upTo _ ts)
  refine ⟨_, rfl, by simp [isNodeOf], ?_⟩
  simp only [Rule.andThen, Rule.within, blockLiteralContent]
  have hr := rest_upTo_newline ts
  generalize upTo (fun ts => next ts = .newline) ts = p at hh hr ⊢
  cases hc : contentLength? min none p.rest.tail with
  | none =>
    have he : Sound [Tree.node .blockLiteralContent []] := sound_tokens (by decide) (by simp)
    exact sound_node ⟨p.trees, .inl rfl⟩ (hh.append he)
  | some n =>
    obtain ⟨hpos, hne⟩ := contentLength?_pos hc
    rcases hr with hr | hr
    · simp [hr] at hne
    · obtain ⟨t, ht, hk⟩ := token_trees hr (by decide)
      have hb : Sound [Tree.node .blockLiteralContent (tokens n (token p.rest).rest).trees] :=
        sound_tokens (by decide) (flat_tokens n _)
      simp only [ht]
      refine sound_node ⟨p.trees, .inr ⟨.leaf t, _, rfl, by simp [isLeafOf, hk], ?_⟩⟩
        (hh.append ((sound_leaf t).append hb))
      have hrest : (token p.rest).rest = p.rest.tail := by cases p.rest <;> rfl
      rw [hrest, tokens]
      intro hnil
      simp only [List.map_eq_nil_iff, List.take_eq_nil_iff] at hnil
      rcases hnil with hnil | hnil
      · omega
      · exact hne hnil

theorem value_inlineValue (min : Nat) (ts : List Placed) : Value (inlineValue min ts).trees := by
  have hl : Value (blockLiteral min ts).trees := value_node (isNode_blockLiteral min ts) (by decide)
  have hf : Value (flowNode ts).trees := value_node (isNode_flowNode ts) mem_valueKinds
  have he : Value (token.within .error ts).trees :=
    .of_fills (fills_error not_mem_valueKinds flat_token ts)
  rw [inlineValue]
  split
  · exact hl
  · exact hl
  · exact hf
  · exact hf
  · next h => exact value_node (isNode_quotedLiteral h) mem_valueKinds
  · exact he
  · exact he
  · exact he
  · split
    · exact fills_value (by simp [isNodeOf, valueKinds]) (sound_tokens (by decide) (flat_name ts))
    · exact value_node (isNode_literal (flat_token.andThen (flat_plainRest min false)) ts)
        mem_valueKinds

theorem fills_keyContent (ts : List Placed) :
    Fills inlineKinds remarkKinds 1 0 (keyContent ts).trees := by
  rw [keyContent]
  split
  · next h => exact (isNode_quotedLiteral h).fills
  · exact (isNode_flowNode ts).fills
  · exact (isNode_flowNode ts).fills
  · exact trees_when (fills_nil.mono (Nat.zero_le 1) (Nat.le_refl 0))
      fun _ => (isNode_literal (flat_upTo _) ts).fills

theorem blockKey_key (ts : List Placed) :
    ∃ cs, (key ts).trees = [.node .key cs] ∧ BlockKey cs ∧ Sound cs := by
  have he (us : List Placed) :
      Fills inlineKinds remarkKinds 0 0
        (when (fun ts => !atKeyEnd ts) ((upTo atKeyEnd).within .error) us).trees :=
    trees_when fills_nil fun _ => fills_error not_mem_inlineKinds (flat_upTo _) us
  have h := (fills_properties not_mem_inlineKinds ts).append
    ((fills_keyContent (properties ts).rest).append (he (keyContent (properties ts).rest).rest))
  exact ⟨_, rfl, .inr h.toContent, h.sound⟩

structure Follows (entry : Tree → Prop) (cs : List Tree) : Prop extends
    Consists (fun t => entry t ∨ t.isTrivia) cs where
  last : cs = [] ∨ ∃ t, cs.getLast? = some t ∧ entry t

theorem Follows.append {entry : Tree → Prop} {cs ds : List Tree} (hc : Follows entry cs)
    (hd : Follows entry ds) :
    Follows entry (cs ++ ds) := by
  refine ⟨hc.toConsists.append hd.toConsists, ?_⟩
  rcases hd.last with rfl | ⟨t, ht, he⟩
  · rw [List.append_nil]
    exact hc.last
  · exact .inr ⟨t, by rw [List.getLast?_append, ht]; rfl, he⟩

def IsEntry (entry : Tree → Prop) (cs : List Tree) : Prop := ∃ t, cs = [t] ∧ entry t ∧ Sound [t]

theorem follows_trivia_entry {entry : Tree → Prop} {r : Rule} {ts : List Placed}
    (h : IsEntry entry (r (pastTrivia ts)).trees) : Follows entry (trivia.andThen r ts).trees := by
  obtain ⟨t, ht, he, hs⟩ := h
  rw [Rule.andThen, rest_trivia, ht]
  have htrivia : Consists (fun t => entry t ∨ t.isTrivia) (trivia ts).trees :=
    ⟨fun u hu => .inr (isTrivia_of_mem_trivia ts u hu), sound_leaves (flat_upTo _ ts)⟩
  exact ⟨htrivia.append (consists_singleton (.inl he) hs), .inr ⟨t, by simp, he⟩⟩

theorem entries_of_loop {entry : Tree → Prop} (test : List Placed → Bool) {r : Rule}
    {ts : List Placed}
    (h : IsEntry entry (r ts).trees) (hr : ∀ us, test us = true →
      IsEntry entry (r (pastTrivia us)).trees) :
    Entries entry (r.andThen (loop test (trivia.andThen r)) ts).trees ∧
      Sound (r.andThen (loop test (trivia.andThen r)) ts).trees := by
  have hf : Follows entry (loop test (trivia.andThen r) (r ts).rest).trees :=
    trees_loop ⟨consists_nil, .inl rfl⟩ (fun _ _ => Follows.append)
      (fun us hus => follows_trivia_entry (hr us hus)) _
  obtain ⟨t, ht, he, hs⟩ := h
  rw [Rule.andThen, ht]
  refine ⟨⟨⟨t, rfl, he⟩, ?_, ?_⟩, hs.append hf.sound⟩
  · rcases hf.last with hn | ⟨u, hu, hue⟩
    · rw [hn]
      exact ⟨t, rfl, he⟩
    · exact ⟨u, by rw [List.getLast?_append, hu]; rfl, hue⟩
  · intro u hu
    rcases List.mem_cons.1 hu with rfl | hu
    · exact .inl he
    · exact hf.each u hu

section Block

variable {node : Nat → Rule} (hn : ∀ min ts, Value (node min ts).trees)
include hn

theorem value_deeper (col : Nat) (ts : List Placed) : Value (deeper node col ts).trees :=
  trees_when value_nil fun _ => .after (fills_triviaRule ts) (hn _ _)

theorem value_itemValue (col : Nat) (ts : List Placed) : Value (itemValue node col ts).trees :=
  trees_branch (fun _ => value_deeper hn col ts) fun _ =>
    .after (fills_blank ts) (.before (hn _ _) (fills_restOfLine not_mem_valueKinds _))

theorem value_marked (col : Nat) {ts : List Placed} {k : Kind} (h : next ts = k) (hk : k ≠ .eof) :
    ∃ (t : Token) (cs : List Tree), (token.andThen (itemValue node col) ts).trees = .leaf t :: cs ∧
    t.kind = k ∧
      Value cs := by
  obtain ⟨t, ht, hkind⟩ := token_trees h hk
  exact ⟨t, _, by rw [Rule.andThen, ht, List.cons_append, List.nil_append], hkind,
    value_itemValue hn col _⟩

theorem isEntry_item (col : Nat) {ts : List Placed} (h : next ts = .dash) :
    IsEntry (fun t => t.isNodeOf [.item]) (item node col ts).trees := by
  obtain ⟨t, cs, hcs, hk, hv⟩ := value_marked hn col h (by decide)
  refine ⟨_, rfl, by simp [isNodeOf], ?_⟩
  rw [hcs]
  exact sound_node ⟨.leaf t, cs, rfl, by simp [isLeafOf, hk], hv.toContent⟩
    ((sound_leaf t).append hv.sound)

theorem isNode_sequence (col : Nat) {ts : List Placed} (h : atDash ts = true) :
    IsNode [.blockSequence] (sequence node col ts).trees := by
  have he := entries_of_loop (entryFollows col atDash) (isEntry_item hn col (next_of_atIndicator h))
    (fun us hus => by
      simp only [entryFollows, Bool.and_eq_true] at hus
      exact isEntry_item hn col (next_of_atIndicator hus.2))
  exact ⟨_, rfl, by simp [isNodeOf], sound_node he.1 he.2⟩

theorem value_pairValueBelow (col : Nat) (ts : List Placed) :
    Value (pairValueBelow node col ts).trees := by
  refine trees_branch ?_ fun _ => value_deeper hn col ts
  intro h
  simp only [atFlushSequence, Bool.and_eq_true] at h
  refine .after (fills_triviaRule ts) (value_node (isNode_sequence hn col ?_) (by decide))
  rw [rest_trivia]
  exact h.2

theorem value_pairValue (col : Nat) (ts : List Placed) : Value (pairValue node col ts).trees := by
  refine trees_branch (fun _ => value_pairValueBelow hn col ts) fun _ => ?_
  refine .after (fills_blank ts) (.after (fills_properties not_mem_valueKinds _) ?_)
  exact trees_branch (fun _ => value_pairValueBelow hn col _) fun _ =>
    .before (value_inlineValue _ _) (fills_restOfLine not_mem_valueKinds _)

theorem fills_pairTail (col : Nat) (ts : List Placed) :
    Fills valueKinds remarkKinds 1 1 (pairTail node col ts).trees := by
  have hb : Fills valueKinds remarkKinds 0 0
      (when (fun ts => next ts = .whitespace && next ts.tail = .colon) token ts).trees := by
    refine trees_when fills_nil fun h => fills_triviaToken (k := .whitespace) ?_ rfl
    simp only [Bool.and_eq_true, decide_eq_true_eq] at h
    exact h.1
  have hc (us : List Placed) :
      Fills valueKinds remarkKinds 0 1 (when (fun ts => next ts = .colon) token us).trees := by
    refine trees_when (fills_nil.mono (Nat.le_refl 0) (Nat.zero_le 1)) fun h => ?_
    obtain ⟨t, ht, hk⟩ := token_trees (of_decide_eq_true h) (by decide)
    rw [ht]
    exact fills_colon hk
  exact hb.append ((hc _).append (value_pairValue hn col _))

def PairParts (cs : List Tree) : Prop :=
  ∃ keys rest, cs = keys ++ rest ∧
    (keys = [] ∨ ∃ ks, keys = [.node .key ks] ∧ BlockKey ks ∧ Sound ks) ∧
    Fills valueKinds remarkKinds 1 1 rest

omit hn in
theorem PairParts.isEntry {cs : List Tree} (h : PairParts cs) :
    IsEntry BlockPair [.node .pair cs] := by
  obtain ⟨keys, rest, rfl, hk, hr⟩ := h
  have hs : Sound keys := by
    rcases hk with rfl | ⟨ks, rfl, -, hks⟩
    · exact sound_nil
    · exact sound_node trivial hks
  refine ⟨_, rfl, ⟨keys, rest, rfl, ?_, hr.toContent⟩, sound_node trivial (hs.append hr.sound)⟩
  rcases hk with hk | ⟨ks, hk, hb, -⟩
  · exact .inl hk
  · exact .inr ⟨ks, hk, hb⟩

theorem pairParts_explicit (col : Nat) {ts : List Placed} (h : next ts = .question) :
    PairParts ((explicitKey node col).andThen
      (when (entryFollows col atColon) (trivia.andThen (pairTail node col))) ts).trees := by
  obtain ⟨t, cs, hcs, hk, hv⟩ := value_marked hn col h (by decide)
  have ht (us : List Placed) : Fills valueKinds remarkKinds 1 1
      (when (entryFollows col atColon) (trivia.andThen (pairTail node col)) us).trees := by
    refine trees_when (fills_nil.mono (Nat.zero_le 1) (Nat.zero_le 1)) fun _ => ?_
    exact (fills_triviaRule us).append (fills_pairTail hn col _)
  refine ⟨_, _, rfl, .inr ⟨_, rfl, ?_⟩, ht _⟩
  rw [hcs]
  exact ⟨.inl ⟨.leaf t, cs, rfl, by simp [isLeafOf, hk], hv.toContent⟩,
    (sound_leaf t).append hv.sound⟩

theorem pairParts_implicit (col : Nat) (ts : List Placed) :
    PairParts ((when (fun ts => next ts ≠ .colon) key).andThen (pairTail node col) ts).trees := by
  refine ⟨_, _, rfl, ?_, fills_pairTail hn col _⟩
  exact trees_when
    (F := fun keys => keys = [] ∨ ∃ ks, keys = [Tree.node .key ks] ∧ BlockKey ks ∧ Sound ks)
    (.inl rfl) fun _ => .inr (blockKey_key ts)

theorem isEntry_pair (col : Nat) (ts : List Placed) : IsEntry BlockPair (pair node col ts).trees :=
  PairParts.isEntry (trees_branch (fun h => pairParts_explicit hn col (next_of_atIndicator h))
    fun _ => pairParts_implicit hn col ts)

theorem isNode_mapping (col : Nat) (ts : List Placed) :
    IsNode [.blockMapping] (mapping node col ts).trees := by
  have he := entries_of_loop (entryFollows col atEntry) (isEntry_pair hn col ts)
    (fun us _ => isEntry_pair hn col _)
  exact ⟨_, rfl, by simp [isNodeOf], sound_node he.1 he.2⟩

theorem value_bareNode (min : Nat) (ts : List Placed) : Value (bareNode node min ts).trees := by
  rw [bareNode]
  split
  · next h => exact value_node (isNode_sequence hn _ h) (by decide)
  · split
    · exact value_node (isNode_blockLiteral min ts) (by decide)
    · split
      · exact value_node (isNode_mapping hn _ ts) (by decide)
      · exact value_inlineValue min ts

theorem value_blockNodeOf (min : Nat) (ts : List Placed) :
    Value (blockNodeOf node min ts).trees := by
  refine trees_branch (fun _ => .after (fills_properties not_mem_valueKinds ts) ?_)
    fun _ => value_bareNode hn min ts
  refine trees_branch (fun _ => ?_) fun _ => value_bareNode hn min _
  exact trees_when value_nil fun _ => .after (fills_triviaRule _) (hn _ _)

end Block

theorem value_blockNode (min : Nat) (ts : List Placed) : Value (blockNode min ts).trees :=
  blockNode_induct (P := fun _ _ p => Value p.trees) (fun _ => lossless_skip) (fun _ _ => value_nil)
    (fun _ _ hn => value_blockNodeOf hn) min ts

def BodyPart (t : Tree) : Prop := t.isTrivia ∨ t.isNodeOf valueKinds ∨ t.isNodeOf remarkKinds

theorem Value.body {cs : List Tree} (h : Value cs) : Consists BodyPart cs := by
  refine ⟨?_, h.sound⟩
  intro t ht
  rcases h.kinds t ht with hk | hk | hk
  · exact .inl hk
  · have hz := List.countP_eq_zero.1 (Nat.le_zero.1 h.colons) t ht
    exact absurd hk hz
  · exact .inr hk

theorem body_nodes (ts : List Placed) :
    Consists BodyPart (loop contentAhead (trivia.andThen (blockNode 0)) ts).trees :=
  trees_loop value_nil.body (fun _ _ => Consists.append)
    (fun us _ => (Value.after (fills_triviaRule us) (value_blockNode 0 _)).body) ts

def Optional (k : Kind) (cs : List Tree) : Prop :=
  cs = [] ∨ ∃ t : Token, cs = [.leaf t] ∧ t.kind = k

theorem Optional.sound {k : Kind} {cs : List Tree} (h : Optional k cs) : Sound cs := by
  rcases h with rfl | ⟨t, rfl, -⟩
  · exact sound_nil
  · exact sound_leaf t

theorem Optional.isLeafOf {k : Kind} {cs : List Tree} (h : Optional k cs) :
    cs = [] ∨ ∃ t, cs = [t] ∧ t.isLeafOf k = true := by
  rcases h with rfl | ⟨t, rfl, hk⟩
  · exact .inl rfl
  · exact .inr ⟨_, rfl, by simp [Tree.isLeafOf, hk]⟩

theorem optional_token {test : List Placed → Bool} {k : Kind} (hk : k ≠ .eof) {ts : List Placed}
    (h : test ts = true → next ts = k) : Optional k (when test token ts).trees :=
  trees_when (.inl rfl) fun ht => .inr (token_trees (h ht) hk)

theorem isNode_document (ts : List Placed) : IsNode [.document] (document ts).trees := by
  refine ⟨_, rfl, by simp [isNodeOf], ?_⟩
  have ho : Optional .directiveEnd
      (when (fun ts => atMarker ts && next ts = .directiveEnd) token ts).trees := by
    refine optional_token (by decide) fun h => ?_
    simp only [Bool.and_eq_true, decide_eq_true_eq] at h
    exact h.2
  have hc (us : List Placed) : ∃ body closing,
      (when (fun ts => atMarker (pastTrivia ts) && next (pastTrivia ts) = .documentEnd)
        (trivia.andThen token) us).trees = body ++ closing ∧ Consists BodyPart body ∧
          Optional .documentEnd closing := by
    refine trees_when (F := fun cs => ∃ body closing, cs = body ++ closing ∧
      Consists BodyPart body ∧ Optional .documentEnd closing)
      ⟨[], [], rfl, value_nil.body, .inl rfl⟩ fun h => ?_
    simp only [Bool.and_eq_true, decide_eq_true_eq] at h
    refine ⟨_, _, rfl, (Value.of_fills (fills_triviaRule us)).body,
      .inr (token_trees ?_ (by decide))⟩
    rw [rest_trivia]
    exact h.2
  -- the trivia in front of the closing marker counts as part of the body
  simp only [Rule.andThen]
  generalize (when (fun ts => atMarker ts && next ts = .directiveEnd) token ts) = p at ho ⊢
  have hb := body_nodes p.rest
  generalize loop contentAhead (trivia.andThen (blockNode 0)) p.rest = q at hb ⊢
  obtain ⟨body, closing, h, hbody, hclosing⟩ := hc q.rest
  have hall := hb.append hbody
  have hcs : p.trees ++ (q.trees ++ (body ++ closing)) =
      p.trees ++ (q.trees ++ body) ++ closing := by
    simp only [List.append_assoc]
  rw [h, hcs]
  exact sound_node ⟨_, _, _, rfl, ho.isLeafOf, hclosing.isLeafOf, hall.each⟩
    ((ho.sound.append hall.sound).append hclosing.sound)

def StreamPart (t : Tree) : Prop := t.isTrivia ∨ t.isNodeOf [.document]

theorem documents_trivia (ts : List Placed) : Consists StreamPart (trivia ts).trees :=
  ⟨fun t h => .inl (isTrivia_of_mem_trivia ts t h), sound_leaves (flat_upTo _ ts)⟩

theorem documents_document (ts : List Placed) : Consists StreamPart (document ts).trees := by
  obtain ⟨t, ht, hk, hs⟩ := isNode_document ts
  rw [ht]
  exact consists_singleton (.inr hk) hs

theorem sound_documents (ts : List Placed) : Consists StreamPart (documents ts).trees :=
  (documents_trivia ts).append (trees_loop consists_nil (fun _ _ => Consists.append)
    (fun us _ => (documents_document us).append (documents_trivia _)) _)

end Grammar

theorem Token.text_ne_nil_of_mem_scan {s : List Char} {t : Token} (h : t ∈ Token.scan s) :
    t.text ≠ [] := by
  have hs (glued : Bool) (s : List Char) : ∀ t ∈ Token.scanFrom glued s, t.text ≠ [] := by
    fun_induction Token.scanFrom glued s with
    | case1 => simp
    | case2 glued c cs l ih =>
      intro t ht
      rcases List.mem_cons.1 ht with rfl | ht
      · simp
      · exact ih t ht
  exact hs false s t h

/-- Every node of a syntax tree obeys the schema, and no token of it is empty. -/
theorem parse_obeys_schema (s : List Char) :
    (∀ l ∈ (parse s).nodes, Schema.Obeys l.tree) ∧ ∀ t ∈ (parse s).leaves, t.text ≠ [] := by
  have hd := Grammar.sound_documents (Placed.place (Token.scan s))
  have hs : Schema.Sound [parse s] := Schema.sound_node hd.each hd.sound
  constructor
  · intro l hl
    have hl' := (List.mem_filter.1 hl).1
    obtain ⟨v, -, h⟩ := Tree.Every.preorderFrom [] (hs []).1 l hl'
    exact h
  · rw [leaves_parse]
    exact fun t => Token.text_ne_nil_of_mem_scan

end LosslessYaml
