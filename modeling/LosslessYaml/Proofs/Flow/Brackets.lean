import LosslessYaml.Proofs.Grammar.Origin
import LosslessYaml.Proofs.Tree.Parent

namespace LosslessYaml

namespace Rule

theorem Advances.test_rest {test : List Placed → Bool} {r : Rule} (h : Advances test r) (ts : List Placed) :
    test (loop test r ts).rest = false := by
  fun_induction Rule.loop test r ts with
  | case1 ts _ p _ q ih => exact ih
  | case2 ts ht p hp => exact absurd (h ts ht) hp
  | case3 ts ht => exact Bool.not_eq_true _ ▸ ht

end Rule

namespace Grammar

open Rule LosslessYaml.Tree

def Clear (cs : List Tree) : Prop := ∀ t : Token, .leaf t ∈ cs → t.kind.isBracket = false

/-- The children of a collection: the only brackets are the one that opens it, which is the first, and the one that
closes it, which is the last. -/
def Bracketed (b : Bracket) (cs : List Tree) : Prop :=
  ∃ (o : Token) (body closing : List Tree), cs = [.leaf o] ++ body ++ closing ∧ o.kind = b.opener ∧ Clear body ∧
    (closing = [] ∨ ∃ c : Token, closing = [.leaf c] ∧ c.kind = b.closer)

def Guarded : Tree → Prop
  | .leaf _ => True
  | .node k cs => Clear cs ∨ ∃ b : Bracket, k = b.collection ∧ Bracketed b cs

structure Matched (cs : List Tree) : Prop where
  parts : ∀ u, EveryOf (fun _ => Guarded) u cs
  clear : Clear cs

section Matched

variable {cs ds : List Tree}

theorem Clear.append (hc : Clear cs) (hd : Clear ds) : Clear (cs ++ ds) := by
  intro t ht
  rcases List.mem_append.1 ht with ht | ht
  · exact hc t ht
  · exact hd t ht

theorem clear_node (k : Kind) (cs : List Tree) : Clear [.node k cs] := by
  intro t ht
  cases List.mem_singleton.1 ht

theorem clear_leaf {t : Token} (h : t.kind.isBracket = false) : Clear [.leaf t] := by
  intro x hx
  cases List.mem_singleton.1 hx
  exact h

theorem matched_nil : Matched [] := ⟨fun _ => trivial, nofun⟩

theorem Matched.append (hc : Matched cs) (hd : Matched ds) : Matched (cs ++ ds) :=
  ⟨fun u => everyOf_append.2 ⟨hc.parts u, hd.parts _⟩, hc.clear.append hd.clear⟩

theorem Matched.node (k : Kind) (h : Matched cs) : Matched [.node k cs] :=
  ⟨fun u => ⟨⟨.inl h.clear, h.parts u⟩, trivial⟩, clear_node k cs⟩

theorem Clear.matched (h : Clear cs) (hflat : ∀ t ∈ cs, t.isNode = false) : Matched cs :=
  ⟨everyOf_leaves (fun _ _ => trivial) hflat, h⟩

theorem matched_leaf {t : Token} (h : t.kind.isBracket = false) : Matched [.leaf t] :=
  (clear_leaf h).matched fun x hx => by rw [List.mem_singleton.1 hx]; rfl

end Matched

section Rules

variable {ts : List Placed}

theorem matched_token {k : Kind} (h : next ts = k) (hk : k.isBracket = false) : Matched (token ts).trees := by
  cases ts with
  | nil => exact matched_nil
  | cons t ts =>
    subst h
    exact matched_leaf hk

theorem matched_trivia (ts : List Placed) : Matched (trivia ts).trees := by
  exact Clear.matched (fun t ht => Kind.isBracket_of_isTrivia (isTrivia_of_mem_trivia ts _ ht)) (flat_upTo _ ts)

theorem matched_flowRest (ts : List Placed) : Matched (upTo (fun ts => endsFlowPlain (pastBlank ts)) ts).trees := by
  induction ts with
  | nil => exact matched_nil
  | cons t ts ih =>
    rw [upTo]
    split
    · exact matched_nil
    · next h => exact (matched_leaf (t := t.token) (isBracket_of_endsFlowPlain (Bool.not_eq_true _ ▸ h))).append ih

theorem matched_flowPlain (h : (next ts).isBracket = false) : Matched (flowPlain ts).trees :=
  ((matched_token rfl h).append (matched_flowRest _)).node .literal

theorem matched_tokens_colonLength {adjacent : Bool} {n : Nat} (h : colonLength? adjacent ts = some n) :
    Matched (tokens n ts).trees := by
  obtain ⟨c, hc, heq | ⟨w, hw, heq⟩⟩ := tokens_colonLength h
  · rw [heq]
    exact matched_leaf (congrArg Kind.isBracket hc)
  · rw [heq]
    exact (matched_leaf (congrArg Kind.isBracket hw)).append (matched_leaf (congrArg Kind.isBracket hc))

end Rules

section Flow

variable {ts : List Placed} {node : Rule} (hn : ∀ ts, Fresh ts → Matched (node ts).trees)
include hn

theorem matched_trivia_then (hf : Fresh (pastTrivia ts)) : Matched (trivia.andThen node ts).trees :=
  (matched_trivia ts).append (rest_trivia ts ▸ hn _ hf)

theorem matched_flowValue (ts : List Placed) : Matched (flowValue node ts).trees :=
  trees_when matched_nil fun h => matched_trivia_then hn (fresh_of_atFlowValueEnd (by simpa using h))

theorem matched_flowPairTail (adjacent : Bool) (ts : List Placed) :
    Matched (flowPairTail node (colonLength? adjacent ts) ts).trees := by
  cases h : colonLength? adjacent ts with
  | none => exact matched_nil
  | some n => exact (matched_tokens_colonLength h).append (matched_flowValue hn _)

theorem matched_flowEntry (b : Bracket) (hf : Fresh ts) : Matched (flowEntry node b ts).trees := by
  rw [flowEntry]
  split
  · exact (matched_flowPairTail hn false ts).node .pair
  · dsimp only
    split
    · exact hn ts hf
    · exact (((hn ts hf).node .key).append (matched_flowPairTail hn _ _)).node .pair

theorem matched_flowEntries (b : Bracket) (ts : List Placed) : Matched (flowEntries node b ts).trees := by
  refine trees_loop matched_nil (fun _ _ => Matched.append) (fun us hc => ?_) ts
  simp only [flowContinues, contentAhead, Bool.and_eq_true, Bool.not_eq_true', List.isEmpty_eq_false_iff] at hc
  refine matched_trivia_then (fun vs hf => ?_) (fresh_pastTrivia hc.1.1 hc.2)
  exact trees_branch (fun h => matched_token (of_decide_eq_true h) rfl) fun _ => matched_flowEntry hn b hf

omit hn in
theorem matched_collection {b : Bracket} {o : Token} {body closing : List Tree} (ho : o.kind = b.opener)
    (hbody : Matched body) (hclosing : closing = [] ∨ ∃ c : Token, closing = [.leaf c] ∧ c.kind = b.closer) :
    Matched [.node b.collection ([.leaf o] ++ body ++ closing)] := by
  have hparts (u : List Char) : EveryOf (fun _ => Guarded) u closing := by
    rcases hclosing with rfl | ⟨c, rfl, -⟩
    · trivial
    · exact ⟨trivial, trivial⟩
  refine ⟨fun u => ⟨⟨.inr ⟨b, rfl, o, body, closing, rfl, ho, hbody.clear, hclosing⟩, ?_⟩, trivial⟩, clear_node _ _⟩
  exact everyOf_append.2 ⟨⟨trivial, hbody.parts _⟩, hparts _⟩

theorem matched_flowCollectionOf {b : Bracket} (hb : next ts = b.opener) :
    Matched (flowCollectionOf node b ts).trees := by
  obtain ⟨o, ho, hk⟩ := token_trees hb (by cases b <;> decide)
  have hentries := matched_flowEntries hn b (token ts).rest
  rw [flowCollectionOf, Rule.within, Rule.andThen, ho, flowBody_eq, Rule.andThen]
  dsimp only
  rw [← List.append_assoc]
  rcases flowClose_trees b (flowEntries node b (token ts).rest).rest with hnil | ⟨c, hc, hclose⟩
  · rw [hnil]
    exact matched_collection hk hentries (.inl rfl)
  · rw [hclose, ← List.append_assoc, List.append_assoc [_]]
    exact matched_collection hk (hentries.append (matched_trivia _)) (.inr ⟨c, rfl, hc⟩)

theorem matched_flowNodeOf (hf : Fresh ts) : Matched (flowNodeOf node ts).trees := by
  rw [flowNodeOf]
  split
  · next h => exact matched_flowCollectionOf hn (b := .square) h
  · next h => exact matched_flowCollectionOf hn (b := .curly) h
  · next h => exact (matched_token h rfl).node .quotedLiteral
  · next h h' _ =>
    refine matched_flowPlain (Kind.isBracket_eq_false ?_ hf.opens)
    cases hk : next ts <;> first | rfl | simp_all

end Flow

theorem matched_flowNode {ts : List Placed} (hf : Fresh ts) : Matched (flowNode ts).trees :=
  flowNode_induct (P := fun ts p => Fresh ts → Matched p.trees) lossless_skip (fun _ _ => matched_nil)
    (fun _ _ hn _ hf => matched_flowNodeOf hn hf) ts hf

/-- Where a collection can only be left open: the text or the document ends, or a collection of the other kind does. -/
def CutsShort (b : Bracket) (ts : List Placed) : Prop :=
  ts = [] ∨ atMarker ts = true ∨ ∃ c : Bracket, c ≠ b ∧ next ts = c.closer

theorem cutsShort_of_not_flowContinues {b : Bracket} {ts : List Placed} (h : flowContinues ts = false)
    (hb : next (pastTrivia ts) ≠ b.closer) : CutsShort b (pastTrivia ts) := by
  simp only [flowContinues, contentAhead, Bool.and_eq_false_iff, Bool.not_eq_false', List.isEmpty_iff] at h
  rcases h with (hnil | hmarker) | hcloser
  · exact .inl hnil
  · exact .inr (.inl hmarker)
  · refine .inr (.inr ?_)
    cases hk : next (pastTrivia ts) with
    | rbracket => exact ⟨.square, fun h => hb (h ▸ hk), rfl⟩
    | rbrace => exact ⟨.curly, fun h => hb (h ▸ hk), rfl⟩
    | _ => rw [hk] at hcloser; cases hcloser

theorem closes_or_cutsShort {b : Bracket} {ts : List Placed} {cs : List Tree} (hb : next ts = b.opener)
    (h : (flowNode ts).trees = [.node b.collection cs]) :
    cs.getLast?.map Tree.kind = some b.closer ∨ CutsShort b (pastTrivia (flowNode ts).rest) := by
  rw [flowNode_of_opener hb, flowCollectionOf, Rule.within] at h ⊢
  obtain rfl := (Tree.node.inj (List.cons.inj h).1).2
  have hend : flowContinues (flowEntries flowNode b (token ts).rest).rest = false :=
    (advances_flowEntries b).test_rest (token ts).rest
  rw [Rule.andThen, flowBody_eq, Rule.andThen]
  dsimp only
  generalize flowEntries flowNode b (token ts).rest = p at hend
  by_cases hclose : next (pastTrivia p.rest) = b.closer
  · left
    obtain ⟨c, hc, hk⟩ := token_trees (rest_trivia p.rest ▸ hclose) (by cases b <;> decide)
    rw [flowClose, Rule.when, branch, if_pos (by simp [hclose]), Rule.andThen, hc]
    simp [Tree.kind, hk]
  · right
    rw [flowClose, Rule.when, branch, if_neg (by simp [hclose]), skip]
    exact cutsShort_of_not_flowContinues hend hclose

end Grammar

namespace Located

open Grammar

/-- A token that opens a collection `m`, as its first child, or closes it, as its last one. -/
def Delimits (l m : Located) : Prop :=
  ∃ b : Bracket, m.kind = b.collection ∧
    (l.kind = b.opener ∧ m.children.head? = some l ∨ l.kind = b.closer ∧ m.children.getLast? = some l)

theorem delimits_of_guarded {l m : Located} {t : Token} (hm : Guarded m.tree) (hl : l ∈ m.children)
    (ht : l.tree = .leaf t) (hb : t.kind.isBracket = true) : l.Delimits m := by
  have hclear {cs : List Tree} {i n : Nat} (hcs : Clear cs) (hmem : l ∈ childrenFrom m.address i n cs) : False := by
    have htree := tree_of_mem_childrenFrom hmem
    rw [ht] at htree
    rw [hcs t htree] at hb
    cases hb
  rw [children] at hl
  cases htree : m.tree with
  | leaf x =>
    rw [htree] at hl
    cases hl
  | node k cs =>
    rw [htree] at hm hl
    rw [Tree.children] at hl
    rcases hm with hcs | ⟨b, rfl, o, body, closing, rfl, ho, hbody, hclosing⟩
    · exact (hclear hcs hl).elim
    · refine ⟨b, by rw [kind, htree]; rfl, ?_⟩
      rw [children, htree, Tree.children]
      rw [childrenFrom_append, childrenFrom_append, List.mem_append, List.mem_append] at hl
      rw [childrenFrom_append, childrenFrom_append]
      rcases hl with (hl | hl) | hl
      · left
        obtain rfl := List.mem_singleton.1 hl
        exact ⟨ho, rfl⟩
      · exact (hclear hbody hl).elim
      · right
        rcases hclosing with rfl | ⟨c, rfl, hc⟩
        · cases hl
        · obtain rfl := List.mem_singleton.1 hl
          exact ⟨hc, List.getLast?_concat⟩

end Located

namespace Grammar

open Placed (Remain)

variable {s : List Char} {n : Located}

theorem guarded_of_encloses {m : Located} (hn : n ∈ (parse s).nodes) (hk : n.kind.isFlowCollection = true)
    (hm : m ∈ (parse s).nodes) (h : n.encloses m = true) : Guarded m.tree :=
  part_of_encloses (fun _ hf => (matched_flowNode hf).parts) hn hk hm h

theorem start_lt_stop_of_leaf {l : Located} {t : Token} (hl : l ∈ (parse s).preorder) (ht : l.tree = .leaf t) :
    l.start < l.stop := by
  obtain ⟨ts, us, hs, -⟩ := Tree.leaves_preorderFrom [] 0 (parse s) l hl
  rw [leaves_parse, ht] at hs
  have hpos := Token.byteLength_text_pos hs
  rw [Located.stop, ht, Tree.byteLength]
  omega

/-- In the range of a flow collection every bracket is the first or the last child of this collection or of one that is
nested in it, of the bracket's own kind. A collection that does not end with its own closing bracket ends where, after
trivia, the text or the document ends or a bracket of the other kind closes. -/
theorem brackets_of_flow (hn : n ∈ (parse s).nodes) (hk : n.kind.isFlowCollection = true) :
    (∀ l ∈ (parse s).preorder, ∀ t : Token, l.tree = .leaf t → t.kind.isBracket = true → n.start ≤ l.start →
      l.stop ≤ n.stop → ∃ m ∈ (parse s).nodes, n.encloses m = true ∧ l.Delimits m) ∧
      ∀ b : Bracket, n.kind = b.collection → n.tree.children.getLast?.map Tree.kind ≠ some b.closer →
        ∃ u ts, Remain s u ts ∧ Text.byteLength u = n.stop ∧ CutsShort b (pastTrivia ts) := by
  refine ⟨fun l hl t ht hb hstart hstop => ?_, fun b hkind hlast => ?_⟩
  · obtain ⟨m, hm, hnm, hchild⟩ :=
      Tree.exists_parent_of_range hl ht (start_lt_stop_of_leaf hl ht) hn hstart hstop
    exact ⟨m, hm, hnm, Located.delimits_of_guarded (guarded_of_encloses hn hk hm hnm) hchild ht hb⟩
  · obtain ⟨b', u, cs, hu, htree, ts, hts, hnext, hflow⟩ := flowOrigin_of_mem_nodes hn hk
    obtain rfl : b' = b := by
      rw [Located.kind, htree, Tree.kind] at hkind
      revert hkind
      cases b' <;> cases b <;> simp [Bracket.collection]
    have hrest := hts.rest lossless_flowNode
    rw [hflow] at hrest
    refine ⟨_, _, hrest, ?_, (closes_or_cutsShort hnext hflow).resolve_left ?_⟩
    · rw [Text.byteLength_append, hu, htree.symm, Tree.forestText_cons, Tree.forestText_nil, List.append_nil,
        ← Tree.byteLength_eq, Located.stop]
    · rw [htree] at hlast
      exact hlast

theorem brackets_of_flow_mismatched :
    ∃ n ∈ (parse "[\x7ba: b]".toList).nodes, n.kind = .flowMapping ∧
      n.tree.children.getLast?.map Tree.kind ≠ some .rbrace ∧
      ∃ u ts, Remain "[\x7ba: b]".toList u ts ∧ Text.byteLength u = n.stop ∧ CutsShort .curly (pastTrivia ts) := by
  obtain ⟨n, hn, hk, hlast⟩ : ∃ n ∈ (parse "[\x7ba: b]".toList).nodes, n.kind = .flowMapping ∧
      n.tree.children.getLast?.map Tree.kind ≠ some .rbrace := by
    decide +kernel
  exact ⟨n, hn, hk, hlast, (brackets_of_flow hn (by rw [hk]; rfl)).2 .curly hk hlast⟩

end Grammar

end LosslessYaml
