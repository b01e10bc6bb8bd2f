import LosslessYaml.Proofs.Fold.Nodes
import LosslessYaml.Proofs.Grammar.Origin
import LosslessYaml.Proofs.Tree.Layout

/-! The colons of pairs. An entry of a block mapping is seen by its separator, the first colon outside of brackets that
a gap follows. The rule for pairs does not look for it: it reads a key and takes the colon that it finds behind the
key. -/

namespace LosslessYaml

namespace Token

def gapAhead : List Token → Bool
  | [] => true
  | t :: _ => t.kind ∈ [Kind.whitespace, .newline, .eof]

/-- The number of tokens in front of the first colon that is outside of brackets and in front of a gap, `n` brackets
being open. -/
def separator? : Nat → List Token → Option Nat
  | _, [] => none
  | n, t :: ts =>
    if n = 0 ∧ t.kind = .colon ∧ gapAhead ts = true then some 0
    else (separator? (depthAfter n [t]) ts).map (1 + ·)

def Unseparated : Nat → List Token → List Token → Prop
  | _, [], _ => True
  | n, t :: us, rest =>
    ¬ (n = 0 ∧ t.kind = .colon ∧ gapAhead (us ++ rest) = true) ∧ Unseparated (depthAfter n [t]) us rest

section Unseparated

variable {n : Nat} {us vs rest : List Token}

theorem depthAfter_cons (n : Nat) (t : Token) (ts : List Token) :
    depthAfter n (t :: ts) = depthAfter (depthAfter n [t]) ts :=
  depthAfter_append n [t] ts

theorem Unseparated.append (hu : Unseparated n us (vs ++ rest)) (hv : Unseparated (depthAfter n us) vs rest) :
    Unseparated n (us ++ vs) rest := by
  induction us generalizing n with
  | nil => exact hv
  | cons t us ih =>
    rw [depthAfter_cons] at hv
    refine ⟨fun hs => hu.1 ?_, ih hu.2 hv⟩
    rwa [← List.append_assoc]

theorem unseparated_singleton {t : Token} (h : t.kind = .colon → gapAhead rest = false) : Unseparated n [t] rest := by
  refine ⟨fun hs => ?_, trivial⟩
  have hgap := hs.2.2
  rw [List.nil_append, h hs.2.1] at hgap
  cases hgap

theorem unseparated_of_open (h : ∀ vs, vs <+: us → 0 < depthAfter n vs) : Unseparated n us rest := by
  induction us generalizing n with
  | nil => trivial
  | cons t us ih =>
    have hn : 0 < n := h [] List.nil_prefix
    refine ⟨fun hs => absurd hs.1 (Nat.ne_of_gt hn), ih fun vs hvs => ?_⟩
    rw [← depthAfter_cons]
    exact h (t :: vs) (List.cons_prefix_cons.2 ⟨rfl, hvs⟩)

theorem separator?_append (h : Unseparated n us rest) :
    separator? n (us ++ rest) = (separator? (depthAfter n us) rest).map (us.length + ·) := by
  induction us generalizing n with
  | nil => simp
  | cons t us ih =>
    rw [List.cons_append, separator?, if_neg h.1, ih h.2, Option.map_map, depthAfter_cons]
    congr 1
    funext i
    simp only [Function.comp_apply, List.length_cons]
    omega

theorem separator?_eq_zero {t : Token} (h : t.kind = .colon) :
    separator? n (t :: rest) = some 0 ↔ gapAhead rest = true ∧ n = 0 := by
  rw [separator?]
  split
  · next hs => exact ⟨fun _ => ⟨hs.2.2, hs.1⟩, fun _ => rfl⟩
  · next hs =>
    refine ⟨fun h => ?_, fun hg => absurd ⟨hg.2, h, hg.1⟩ hs⟩
    obtain ⟨i, -, hi⟩ := Option.map_eq_some_iff.1 h
    omega

end Unseparated

end Token

namespace Tree

def isExplicit : Tree → Bool
  | .node .pair (.node .key (mark :: _) :: _) => mark.isLeafOf .question
  | _ => false

/-- The colon of a pair. The tokens `before` it are the key and a blank. -/
structure HasColon (t : Tree) (before : List Token) (colon : Token) : Prop where
  kind : colon.kind = .colon
  parts : ∃ (keys : List Tree) (blanks : List Token) (value : List Tree),
    t = .node .pair (keys ++ (blanks.map .leaf ++ .leaf colon :: value)) ∧ before = leavesOf keys ++ blanks ∧
      (keys = [] ∨ ∃ cs, keys = [.node .key cs]) ∧
      (blanks = [] ∨ ∃ b : Token, blanks = [b] ∧ b.kind = .whitespace)

end Tree

theorem Rule.Lossless.map_token {r : Rule} (hl : Lossless r) (ts : List Placed) :
    ts.map Placed.token = Tree.leavesOf (r ts).trees ++ (r ts).rest.map Placed.token := by
  obtain ⟨us, hus, hleaves⟩ := hl ts
  rw [hleaves, ← List.map_append, ← hus]

namespace Grammar

open Rule LosslessYaml.Tree
open Token (Unseparated depthAfter gapAhead separator?)

section Lookahead

variable {ts us : List Placed} {n : Nat}

theorem gapAhead_map_token (ts : List Placed) : gapAhead (ts.map Placed.token) = atGap ts := by
  cases ts with
  | nil => rfl
  | cons t ts =>
    change decide (t.kind ∈ [Kind.whitespace, .newline, .eof]) = atGap (t :: ts)
    rw [atGap, next_cons]
    cases t.kind <;> rfl

theorem colonAhead_cons {t : Placed} (h : colonAhead n (t :: ts) = true) :
    n = 0 ∧ t.token.kind = .colon ∧ gapAhead (ts.map Placed.token) = true ∨
      colonAhead (depthAfter n [t.token]) ts = true := by
  rw [gapAhead_map_token]
  change n = 0 ∧ t.kind = .colon ∧ atGap ts = true ∨
    colonAhead (if t.kind.isFlowOpener then n + 1 else if t.kind.isFlowCloser then n - 1 else n) ts = true
  rw [colonAhead] at h
  cases hk : t.kind <;> simp [hk, Kind.isFlowOpener, Kind.isFlowCloser] at h ⊢ <;> simpa [and_assoc] using h

theorem isSome_separator? (h : colonAhead n ts = true) : (separator? n (ts.map Placed.token)).isSome = true := by
  induction ts generalizing n with
  | nil => cases h
  | cons t ts ih =>
    rw [List.map_cons, separator?]
    split
    · rfl
    · next hs =>
      rw [Option.isSome_map]
      exact ih ((colonAhead_cons h).resolve_left hs)

theorem colonAhead_behind (hu : Unseparated n (us.map Placed.token) (ts.map Placed.token))
    (h : colonAhead n (us ++ ts) = true) : colonAhead (depthAfter n (us.map Placed.token)) ts = true := by
  induction us generalizing n with
  | nil => exact h
  | cons t us ih =>
    rw [List.map_cons, Token.depthAfter_cons]
    refine ih hu.2 ((colonAhead_cons h).resolve_left fun hs => hu.1 ?_)
    rwa [← List.map_append]

end Lookahead

def Passes (r : Rule) (ts : List Placed) : Prop :=
  ∀ n, Unseparated n (leavesOf (r ts).trees) ((r ts).rest.map Placed.token)

section Passes

variable {r r' : Rule} {ts : List Placed} {test stop : List Placed → Bool}

theorem passes_skip (ts : List Placed) : Passes skip ts := fun _ => trivial

theorem passes_token (h : next ts ≠ .colon) : Passes token ts := by
  cases ts with
  | nil => exact passes_skip []
  | cons t ts => exact fun n => Token.unseparated_singleton fun hc => absurd hc h

theorem passes_upTo (h : ∀ ts, stop ts = false → atColon ts = false) (ts : List Placed) : Passes (upTo stop) ts := by
  induction ts with
  | nil => exact passes_skip []
  | cons t ts ih =>
    intro n
    rw [upTo]
    split
    · exact trivial
    · next hs =>
      have hfirst : Unseparated n [t.token] (ts.map Placed.token) := by
        refine Token.unseparated_singleton fun hk => ?_
        have hcolon := h (t :: ts) (Bool.not_eq_true _ ▸ hs)
        rw [gapAhead_map_token]
        simpa [atColon, atIndicator, show t.kind = .colon from hk] using hcolon
      rw [(lossless_upTo stop).map_token ts] at hfirst
      exact hfirst.append (ih _)

theorem Passes.andThen (hr : Passes r ts) (hl : Lossless r') (hr' : Passes r' (r ts).rest) :
    Passes (r.andThen r') ts := by
  intro n
  have hfirst := hr n
  rw [hl.map_token (r ts).rest] at hfirst
  rw [Rule.andThen, leavesOf_append]
  exact hfirst.append (hr' _)

theorem Passes.within (hr : Passes r ts) (k : Kind) : Passes (r.within k) ts := by
  intro n
  rw [Rule.within, leavesOf, leaves, leavesOf, List.append_nil]
  exact hr n

theorem Passes.branch (hr : test ts = true → Passes r ts) (hr' : test ts = false → Passes r' ts) :
    Passes (branch test r r') ts := by
  intro n
  rw [Rule.branch]
  split
  · next h => exact hr h n
  · next h => exact hr' (Bool.not_eq_true _ ▸ h) n

theorem Passes.when (hr : test ts = true → Passes r ts) : Passes (when test r) ts :=
  Passes.branch hr fun _ => passes_skip ts

theorem Passes.loop (hl : Lossless r) (ha : Advances test r) (hr : ∀ ts, test ts = true → Passes r ts)
    (ts : List Placed) : Passes (loop test r) ts := by
  fun_induction Rule.loop test r ts with
  | case1 ts ht p hlt q ih =>
    rw [Passes, loop_of_takes ht hlt]
    exact (hr ts ht).andThen (hl.loop test) ih
  | case2 ts ht p hlt => exact absurd (ha ts ht) hlt
  | case3 ts ht =>
    rw [Passes, loop_of_not (Bool.not_eq_true _ ▸ ht)]
    exact fun _ => trivial

theorem Passes.colonAhead {n : Nat} (hp : Passes r ts) (hl : Lossless r) (h : colonAhead n ts = true) :
    colonAhead (depthAfter n (leavesOf (r ts).trees)) (r ts).rest = true := by
  obtain ⟨us, hus, hleaves⟩ := hl ts
  have hunseparated := hp n
  rw [hleaves] at hunseparated ⊢
  rw [hus] at h
  exact colonAhead_behind hunseparated h

end Passes

section Key

variable {ts : List Placed}

theorem passes_property (h : atProperty ts = true) : Passes (property.andThen (when atInnerBlank token)) ts := by
  simp only [atProperty, Bool.and_eq_true, decide_eq_true_eq] at h
  have hname : Passes name ts := by
    refine (passes_token (by rw [h.1]; decide)).andThen (lossless_upTo _) (passes_upTo (fun us hus => ?_) _)
    -- a name takes a colon only if no gap follows it
    simp only [Bool.not_eq_false', continuesName] at hus
    cases hc : atColon us with
    | false => rfl
    | true =>
      rw [next_of_atIndicator hc, hc] at hus
      exact hus.symm
  refine (hname.within _).andThen (lossless_token.when _) (Passes.when fun hb => passes_token ?_)
  simp only [atInnerBlank, Bool.and_eq_true, decide_eq_true_eq] at hb
  rw [hb.1.1]
  decide

theorem passes_properties (ts : List Placed) : Passes properties ts :=
  Passes.loop (lossless_property.andThen (lossless_token.when _)) advances_properties (fun _ => passes_property) ts

theorem passes_flowNode {b : Bracket} (hs : Spread ts) (hb : next ts = b.opener) : Passes flowNode ts := by
  -- all of a flow collection between its brackets is inside of brackets
  intro n
  obtain ⟨o, body, closing, htrees, ho, hbody, hclosing⟩ := exists_flowNode hs hb
  have hopener : o.kind.isFlowOpener = true ∧ o.kind ≠ .colon := by
    rw [ho]
    cases b <;> decide
  have hleaves : leavesOf (flowNode ts).trees = [o] ++ (leavesOf body ++ leavesOf closing) := by
    simp [htrees, leavesOf, leaves]
  have hdepth : depthAfter n [o] = n + 1 := Token.depthAfter_cons_opener hopener.1 n []
  rw [hleaves]
  refine Unseparated.append (Token.unseparated_singleton fun h => absurd h hopener.2) ?_
  rw [hdepth]
  refine Unseparated.append (Token.unseparated_of_open fun vs hvs => ?_) ?_
  · have := hbody vs hvs (n + 1)
    omega
  · rcases hclosing with rfl | ⟨c, rfl, hc⟩
    · trivial
    · refine Token.unseparated_singleton fun h => ?_
      rw [hc] at h
      cases b <;> cases h

theorem atColon_of_not_atKeyEnd (h : atKeyEnd ts = false) : atColon ts = false := by
  simp only [atKeyEnd, Bool.or_eq_false_iff] at h
  cases ts with
  | nil => rfl
  | cons t ts =>
    by_cases hw : t.kind = .whitespace
    · simp [atColon, atIndicator, hw]
    · simpa [pastBlank, hw] using h.2

theorem passes_keyContent (hs : Spread ts) : Passes keyContent ts := by
  intro n
  rw [keyContent]
  split
  · next h => exact ((passes_token (by rw [h]; decide)).within _) n
  · next h => exact passes_flowNode (b := .square) hs h n
  · next h => exact passes_flowNode (b := .curly) hs h n
  · exact Passes.when (fun _ => (passes_upTo (fun _ => atColon_of_not_atKeyEnd) ts).within _) n

theorem passes_key (hs : Spread ts) : Passes key ts := by
  have herror : Lossless (when (fun ts => !atKeyEnd ts) ((upTo atKeyEnd).within .error)) :=
    ((lossless_upTo _).within _).when _
  exact ((passes_properties ts).andThen (lossless_keyContent.andThen herror)
    ((passes_keyContent (hs.rest lossless_properties)).andThen herror
      (Passes.when fun _ => (passes_upTo (fun _ => atColon_of_not_atKeyEnd) _).within _))).within _

theorem atKeyEnd_rest_key (ts : List Placed) : atKeyEnd (key ts).rest = true := by
  change atKeyEnd (when (fun ts => !atKeyEnd ts) ((upTo atKeyEnd).within .error)
    (keyContent (properties ts).rest).rest).rest = true
  rw [Rule.when, Rule.branch]
  split
  · rcases stop_rest_upTo atKeyEnd (keyContent (properties ts).rest).rest with hnil | hstop
    · rw [Rule.within, hnil]
      rfl
    · exact hstop
  · next h => simpa [skip] using h

theorem atColon_rest_key (hs : Spread ts) (h : colonAhead 0 ts = true) : atColon (pastBlank (key ts).rest) = true := by
  have hahead := (passes_key hs).colonAhead lossless_key h
  have hend := atKeyEnd_rest_key ts
  rwa [atKeyEnd, atLineEnd_of_colonAhead hahead, Bool.false_or] at hend

end Key

section Pair

variable {ts : List Placed}

theorem isExplicit_pair {node : Nat → Rule} {col : Nat} {t : Tree} (hq : atQuestion ts = true)
    (h : (pair node col ts).trees = [t]) : t.isExplicit = true := by
  obtain ⟨mark, hmark, hk⟩ := token_trees (next_of_atIndicator hq) (by decide)
  rw [pair, Rule.within, Rule.branch, if_pos hq, Rule.andThen, explicitKey, Rule.within, Rule.andThen, hmark] at h
  obtain rfl := List.singleton_inj.1 h
  exact decide_eq_true hk

theorem exists_pairTail (node : Nat → Rule) (col : Nat) (h : next (pastBlank ts) = .colon) :
    ∃ (blanks : List Token) (colon : Placed) (after : List Placed),
      ts.map Placed.token = blanks ++ colon.token :: after.map Placed.token ∧
        (blanks = [] ∨ ∃ b : Token, blanks = [b] ∧ b.kind = .whitespace) ∧ pastBlank ts = colon :: after ∧
        (pairTail node col ts).trees =
          blanks.map .leaf ++ .leaf colon.token :: (pairValue node col after).trees := by
  cases ts with
  | nil => cases h
  | cons t ts =>
    by_cases hw : t.kind = .whitespace
    · rw [pastBlank, if_pos hw] at h ⊢
      cases ts with
      | nil => cases h
      | cons c us =>
        refine ⟨[t.token], c, us, rfl, .inr ⟨t.token, rfl, hw⟩, rfl, ?_⟩
        simp [pairTail, Rule.andThen, Rule.when, Rule.branch, hw, show c.kind = .colon from h, token]
    · rw [pastBlank, if_neg hw] at h ⊢
      refine ⟨[], t, ts, rfl, .inl rfl, rfl, ?_⟩
      simp [pairTail, Rule.andThen, Rule.when, Rule.branch, show t.kind = .colon from h, token, skip]

def implicitKey : Rule := when (fun ts => next ts ≠ .colon) key

theorem implicitKey_cases (hs : Spread ts) (h : colonAhead 0 ts = true) :
    next ts = .colon ∧ pastBlank ts = ts ∧ implicitKey ts = ⟨[], ts⟩ ∨
      (∃ cs, (implicitKey ts).trees = [.node .key cs]) ∧ atColon (pastBlank (implicitKey ts).rest) = true := by
  by_cases hc : next ts = .colon
  · refine .inl ⟨hc, ?_, by simp [implicitKey, Rule.when, Rule.branch, hc, skip]⟩
    cases ts with
    | nil => rfl
    | cons t ts => rw [pastBlank, if_neg (by rw [show t.kind = .colon from hc]; decide)]
  · have hkey : implicitKey ts = key ts := if_pos (decide_eq_true hc)
    rw [hkey]
    exact .inr ⟨⟨_, rfl⟩, atColon_rest_key hs h⟩

theorem exists_pair (node : Nat → Rule) (col : Nat) (hs : Spread ts) (he : atEntry ts = true)
    (hq : atQuestion ts = false) :
    ∃ (t : Tree) (before : List Token) (colon : Token) (after : List Token),
      (pair node col ts).trees = [t] ∧ t.HasColon before colon ∧ ts.map Placed.token = before ++ colon :: after ∧
        Unseparated 0 before (colon :: after) ∧ (before = [] ∨ gapAhead after = true) := by
  have hpass : Passes implicitKey ts := Passes.when fun _ => passes_key hs
  have hl : Lossless implicitKey := lossless_key.when _
  have hcases := implicitKey_cases hs (colonAhead_of_atEntry he hq)
  have hnext : next (pastBlank (implicitKey ts).rest) = .colon := by
    rcases hcases with ⟨hc, hpast, hkey⟩ | ⟨-, hcolon⟩
    · rwa [hkey, hpast]
    · exact next_of_atIndicator hcolon
  obtain ⟨blanks, colon, after, hrest, hblanks, hpast, htail⟩ := exists_pairTail node col hnext
  rw [hpast] at hnext
  have htrees : (pair node col ts).trees = [.node .pair ((implicitKey ts).trees ++
      (blanks.map .leaf ++ .leaf colon.token :: (pairValue node col after).trees))] := by
    rw [← htail, pair, Rule.within, Rule.branch, if_neg (Bool.not_eq_true _ ▸ hq)]
    rfl
  refine ⟨_, leavesOf (implicitKey ts).trees ++ blanks, colon.token, after.map Placed.token, htrees,
    ⟨hnext, _, blanks, _, rfl, rfl, ?_, hblanks⟩, ?_, ?_, ?_⟩
  · exact hcases.imp (fun h => by rw [h.2.2]) And.left
  · rw [hl.map_token ts, hrest, List.append_assoc]
  · refine Unseparated.append ?_ ?_
    · rw [← hrest]
      exact hpass 0
    · rcases hblanks with rfl | ⟨b, rfl, hb⟩
      · trivial
      · exact Token.unseparated_singleton fun h => absurd (hb.symm.trans h) (by decide)
  · rcases hcases with ⟨-, hsame, hkey⟩ | ⟨-, hcolon⟩
    · -- without a key there is no blank either
      left
      rw [hkey] at hrest hpast ⊢
      rw [hsame] at hpast
      rw [hpast] at hrest
      simpa [leavesOf] using hrest
    · right
      rw [hpast] at hcolon
      simp only [atColon, atIndicator, Bool.and_eq_true] at hcolon
      rw [gapAhead_map_token]
      exact hcolon.2

end Pair

end Grammar

open LosslessYaml.Tree (isLeafOf)
open Token (gapAhead depthAfter separator?)

section Mapping

variable {s : List Char} {l e : Located} (hl : l ∈ (parse s).nodes) (hm : l.tree.isNodeOf [.blockMapping] = true)
    (he : e ∈ l.entries .pair)
include hl hm he

theorem Grammar.pair_of_mem_entries :
    (∃ u, Text.byteLength u = e.start ∧ PairOrigin s u e.tree) ∧ Schema.BlockPair e.tree := by
  obtain ⟨u, hu, horigin⟩ := origin_of_mem_nodes s hl
  have hobeys := Fold.obeys_of_mem_nodes hl
  obtain ⟨hchild, hpair⟩ := List.mem_filter.1 he
  rw [Located.children, ← hu.1] at hchild
  cases htree : l.tree with
  | leaf t =>
    rw [htree] at hm
    cases hm
  | node k cs =>
    rw [htree] at hm horigin hobeys hchild
    obtain rfl : k = .blockMapping := by simpa [Tree.isNodeOf] using hm
    constructor
    · obtain ⟨v, hv, ho⟩ := Tree.Each.childrenFrom l.address 0 horigin e hchild
      exact ⟨v, hv.1, ho⟩
    · refine (hobeys.between e.tree (Located.tree_of_mem_childrenFrom hchild)).resolve_right fun htrivia => ?_
      cases ht : e.tree with
      | leaf t =>
        rw [ht] at hpair
        cases hpair
      | node k cs =>
        rw [ht] at htrivia
        cases htrivia

end Mapping

theorem Tree.HasColon.single {t : Tree} {before : List Token} {colon : Token} (h : t.HasColon before colon)
    (hp : Schema.BlockPair t) : t.children.countP (isLeafOf .colon) = 1 := by
  obtain ⟨keys, blanks, value, rfl, -⟩ := h.parts
  obtain ⟨keys', rest, heq, hkeys, hrest⟩ := hp
  refine Nat.le_antisymm ?_ ?_
  · have hnone : keys'.countP (isLeafOf .colon) = 0 := by
      rcases hkeys with rfl | ⟨cs, rfl, -⟩ <;> rfl
    rw [heq, Tree.children, List.countP_append, hnone, Nat.zero_add]
    exact hrest.colons
  · refine List.countP_pos_iff.2 ⟨.leaf colon, ?_, decide_eq_true h.kind⟩
    simp [Tree.children]

/-- A pair has one colon, with nothing in front of it but its key and a blank. The separator by which the entry was seen
is this colon or stands behind it, and it is this colon just if a gap follows it and it is outside of brackets. A gap
does follow, unless the pair starts with its colon. -/
theorem parse_pair_colon {s : List Char} {l e : Located} (hl : l ∈ (parse s).nodes)
    (hm : l.tree.isNodeOf [.blockMapping] = true) (he : e ∈ l.entries .pair) (hx : e.tree.isExplicit = false) :
    ∃ (front before : List Token) (colon : Token) (after : List Token) (i : Nat),
      Token.scan s = front ++ (before ++ colon :: after) ∧ e.start = Text.byteLength (Token.textOf front) ∧
        e.tree.HasColon before colon ∧ e.tree.children.countP (isLeafOf .colon) = 1 ∧
        separator? 0 (before ++ colon :: after) = some i ∧ before.length ≤ i ∧
        (before.length = i ↔ gapAhead after = true ∧ depthAfter 0 before = 0) ∧
        (before = [] ∨ gapAhead after = true) := by
  obtain ⟨⟨u, hu, horigin⟩, hpair⟩ := Grammar.pair_of_mem_entries hl hm he
  obtain ⟨node, col, ts, hts, hentry, htrees⟩ := horigin (Layout.isNode_of_isNodeOf (List.mem_filter.1 he).2)
  have hq : Grammar.atQuestion ts = false := by
    cases hq : Grammar.atQuestion ts with
    | false => rfl
    | true =>
      rw [Grammar.isExplicit_pair hq htrees] at hx
      cases hx
  obtain ⟨t, before, colon, after, ht, hcolon, hsplit, hunseparated, hgap⟩ :=
    Grammar.exists_pair node col hts.spread hentry hq
  obtain rfl := List.singleton_inj.1 (ht.symm.trans htrees)
  obtain ⟨front, hfront, hlen⟩ := hts.scan
  have hseparator := Token.separator?_append hunseparated
  obtain ⟨i, hi⟩ := Option.isSome_iff_exists.1 (Grammar.isSome_separator? (Grammar.colonAhead_of_atEntry hentry hq))
  rw [hsplit] at hfront hi
  obtain ⟨j, hj, hij⟩ := Option.map_eq_some_iff.1 (hseparator.symm.trans hi)
  refine ⟨front, before, colon, after, i, hfront, ?_, hcolon,
    hcolon.single hpair, hi, by omega, ?_, hgap⟩
  · rw [← hu, hlen]
  · rw [← Token.separator?_eq_zero hcolon.kind, hj, Option.some.injEq]
    omega

/-- The first colon in `[a: b]: c` that a gap follows is inside of brackets, and the pair has the second one. -/
theorem parse_pair_colon_behind_brackets :
    ∃ l ∈ (parse "[a: b]: c".toList).nodes, ∃ e ∈ l.entries .pair,
      ∃ (front before : List Token) (colon : Token) (after : List Token),
        Token.scan "[a: b]: c".toList = front ++ (before ++ colon :: after) ∧ e.tree.HasColon before colon ∧
          before = (Token.scan "[a: b]: c".toList).take 6 ∧ separator? 0 (before ++ colon :: after) = some 6 := by
  have h : ∃ l ∈ (parse "[a: b]: c".toList).nodes, l.tree.isNodeOf [.blockMapping] = true ∧
      ∃ e ∈ l.entries .pair, e.tree.isExplicit = false ∧
        (e.tree.children.take 2).map (fun t => (t.isNode, t.leaves)) =
          [(true, (Token.scan "[a: b]: c".toList).take 6), (false, [⟨.colon, [':']⟩])] := by
    decide +kernel
  obtain ⟨l, hl, hm, e, he, hx, hparts⟩ := h
  obtain ⟨front, before, colon, after, i, hscan, -, hcolon, -, hi, -, hiff, hgap⟩ := parse_pair_colon hl hm he hx
  have hbefore : before = (Token.scan "[a: b]: c".toList).take 6 := by
    obtain ⟨keys, blanks, value, htree, rfl, hkeys, hblanks⟩ := hcolon.parts
    rw [htree] at hparts
    generalize (Token.scan "[a: b]: c".toList).take 6 = ts at hparts
    rcases hkeys with rfl | ⟨cs, rfl⟩ <;> rcases hblanks with rfl | ⟨b, rfl, hb⟩
    · simp [Tree.children, Tree.isNode] at hparts
    · simp [Tree.children, Tree.isNode] at hparts
    · simpa [Tree.children, Tree.isNode, Tree.leaves, Tree.leavesOf] using (List.cons.inj hparts).1
    · obtain rfl : b = ⟨.colon, [':']⟩ := by
        simpa [Tree.children, Tree.isNode, Tree.leaves] using (List.cons.inj hparts).2
      cases hb
  have hlength : before.length = i := by
    refine hiff.2 ⟨hgap.resolve_left fun hnil => ?_, ?_⟩
    · exact absurd (hnil.symm.trans hbefore) (by decide +kernel)
    · rw [hbefore]
      decide +kernel
  have hsix : before.length = 6 := by
    rw [hbefore]
    decide +kernel
  exact ⟨l, hl, e, he, front, before, colon, after, hscan, hcolon, hbefore, hi.trans (by rw [← hlength, hsix])⟩

/-- The entry `:a b: c` was seen by its second colon, and the pair has the first one. -/
theorem glued_colon_taken :
    ∃ l ∈ (parse ":a b: c".toList).nodes, l.tree.isNodeOf [.blockMapping] = true ∧
      ∃ e ∈ l.entries .pair, e.tree.isExplicit = false ∧ e.start = 0 ∧ e.tree.HasColon [] ⟨.colon, [':']⟩ ∧
        separator? 0 (Token.scan ":a b: c".toList) = some 4 := by
  have h : ∃ l ∈ (parse ":a b: c".toList).nodes, l.tree.isNodeOf [.blockMapping] = true ∧
      ∃ e ∈ l.entries .pair, e.tree.isExplicit = false ∧ e.start = 0 ∧ e.tree.isNodeOf [.pair] = true ∧
        (e.tree.children.take 1).map (fun t => (t.isNode, t.leaves)) = [(false, [⟨.colon, [':']⟩])] := by
    decide +kernel
  obtain ⟨l, hl, hm, e, he, hx, hstart, hkind, hfirst⟩ := h
  refine ⟨l, hl, hm, e, he, hx, hstart, ⟨rfl, [], [], e.tree.children.tail, ?_, rfl, .inl rfl, .inl rfl⟩, ?_⟩
  · cases htree : e.tree with
    | leaf t =>
      rw [htree] at hkind
      cases hkind
    | node k cs =>
      rw [htree] at hkind hfirst
      obtain rfl : k = .pair := by simpa [Tree.isNodeOf] using hkind
      cases cs with
      | nil => cases hfirst
      | cons c cs =>
        cases c with
        | node k ds => cases hfirst
        | leaf t =>
          obtain rfl : t = ⟨.colon, [':']⟩ := by simpa [Tree.children, Tree.leaves, Tree.isNode] using hfirst
          rfl
  · decide +kernel

end LosslessYaml
