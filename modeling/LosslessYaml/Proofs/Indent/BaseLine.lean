import LosslessYaml.Proofs.Indent.Opinion
import LosslessYaml.Proofs.Lossless
import LosslessYaml.Proofs.Text.Column
import Mathlib.Logic.Relation

/-! The line that a node in effect starts on. The search for it goes up from line to line and comes to an end; each
line it leaves starts inside of a node that is not around the given one. -/

namespace LosslessYaml

def Located.Spans (l : Located) (pos : Nat) : Prop := l.start < pos ∧ pos < l.stop

theorem Side.lt_of_holds {pos a b : Nat} {side : Side} (h : side.holds pos a b = true) : a < b := by
  cases side <;> simp only [Side.holds, Bool.and_eq_true, decide_eq_true_eq] at h <;> omega

namespace Tree

structure Innermost (root : Tree) (pos : Nat) (b : Located) : Prop where
  mem : b ∈ root.nodes
  spans : b.Spans pos ∨ b = root.located ∧ ∀ n ∈ root.nodes, ¬ n.Spans pos
  inside : ∀ n ∈ root.nodes, n.Spans pos → n.encloses b = true

def SharesStart (root : Tree) (l p : Located) : Prop := p ∈ root.nodes ∧ l ∈ p.children ∧ p.start = l.start

structure Topmost (root : Tree) (b a : Located) : Prop where
  reached : Relation.ReflTransGen root.SharesStart b a
  last : ∀ p, ¬ root.SharesStart a p

end Tree

theorem Column.eq_of_next_error {tab n : Nat} {c : Char} {e : Fault} (h : next tab n c = .error e) :
    e = .columnOverflow := by
  rw [next] at h
  split at h <;> split at h <;> cases h <;> rfl

theorem Column.eq_of_foldlM_error {tab n : Nat} {s : List Char} {e : Fault} (h : s.foldlM (next tab) n = .error e) :
    e = .columnOverflow := by
  induction s generalizing n with
  | nil => cases h
  | cons c s ih =>
    rw [List.foldlM_cons] at h
    cases hc : next tab n c with
    | error e' =>
      rw [hc] at h
      cases h
      exact eq_of_next_error hc
    | ok m =>
      rw [hc] at h
      exact ih h

theorem Document.eq_of_lineAt {d : Document} {n : Nat} {l : Line} (h : d.lineAt n = .ok l) : l = d.lineHolding n := by
  rw [lineAt] at h
  split at h
  · cases h
    rfl
  · cases h

theorem Document.eq_of_lineIndent_error {d : Document} {n : Nat} {l : Line} {e : Fault} (hl : d.lineAt n = .ok l)
    (h : d.lineIndent n = .error e) : e = .columnOverflow := by
  rw [lineIndent, hl] at h
  exact Column.eq_of_foldlM_error h

theorem Document.lt_start_of_lineHolding {d : Document} {n : Nat} {l : Line} (hl : l ∈ d.lines)
    (h : (d.lineHolding n).start < l.start) : n < l.start := by
  have hheld := d.holds_lineHolding n
  have hsize := stop_le_size hl
  have hstop := l.start_le_stop
  apply Decidable.byContradiction
  intro hle
  rcases hheld.last l hl (by omega) with rfl | hlt
  · omega
  · omega

namespace Focus

theorem chain_climbFrom_suffix (n : Located) (ps : List Located) : (climbFrom n ps).chain <:+ n :: ps := by
  induction ps generalizing n with
  | nil => exact List.suffix_refl _
  | cons p ps ih =>
    rw [climbFrom]
    split
    · exact (ih p).trans (List.suffix_cons n (p :: ps))
    · exact List.suffix_refl _

theorem reached_climbFrom {root : Tree} {n : Located} {ps : List Located}
    (hmem : ∀ p ∈ ps, p ∈ root.nodes) (hchain : (n :: ps).IsChain fun l p => l ∈ p.children) :
    Relation.ReflTransGen root.SharesStart n (climbFrom n ps).node := by
  induction ps generalizing n with
  | nil => exact .refl
  | cons p ps ih =>
    obtain ⟨hp, hps⟩ := List.forall_mem_cons.1 hmem
    obtain ⟨hchild, hrest⟩ := List.isChain_cons_cons.1 hchain
    rw [climbFrom]
    split
    · next hstart => exact .head ⟨hp, hchild, hstart⟩ (ih hps hrest)
    · exact .refl

theorem start_ne_of_climbFrom {n p : Located} {ps qs : List Located}
    (h : (climbFrom n ps).parents = p :: qs) : p.start ≠ (climbFrom n ps).node.start := by
  induction ps generalizing n with
  | nil => cases h
  | cons q ps ih =>
    rw [climbFrom] at h ⊢
    split
    · next hstart =>
      rw [if_pos hstart] at h
      exact ih h
    · next hstart =>
      rw [if_neg hstart] at h
      obtain ⟨rfl, -⟩ := List.cons.inj h
      exact hstart

end Focus

namespace Tree

variable {root : Tree} {pos : Nat}

theorem pairwise_chain {side : Side} (hroot : root.isNode = true) :
    (root.focus pos side).chain.Pairwise fun l p => p.Precedes l := by
  obtain ⟨below, hnodes, hchain⟩ := nodes_and_chain root pos side hroot
  rw [← List.pairwise_reverse, hchain]
  refine root.pairwise_nodes.sublist ?_
  rw [hnodes]
  exact List.filter_sublist.cons_cons _

theorem holds_around {n : Located} : Side.holds pos n.start n.stop .around = true ↔ n.Spans pos := by
  rw [Side.holds, Bool.and_eq_true, decide_eq_true_eq, decide_eq_true_eq]
  rfl

theorem spans_of_mem_chain (hroot : root.isNode = true) {n : Located}
    (h : n ∈ (root.focus pos .around).chain) : n ∈ root.nodes ∧ (n = root.located ∨ n.Spans pos) := by
  rw [← holds_around]
  exact mem_chain_focus hroot h

theorem spans_focus (hroot : root.isNode = true) (pos : Nat) : (root.focus pos .around).node ∈ root.nodes ∧
    ((root.focus pos .around).node = root.located ∨ (root.focus pos .around).node.Spans pos) :=
  spans_of_mem_chain hroot List.mem_cons_self

theorem nodup_chain {side : Side} (hroot : root.isNode = true) : (root.focus pos side).chain.Nodup := by
  obtain ⟨below, hnodes, hchain⟩ := nodes_and_chain root pos side hroot
  rw [List.Nodup, ← List.pairwise_reverse, hchain]
  refine List.Pairwise.imp Ne.symm (root.nodup_nodes.sublist ?_)
  rw [hnodes]
  exact List.filter_sublist.cons_cons _

theorem exists_chain {side : Side} (hroot : root.isNode = true) {n : Located} (hn : n ∈ root.nodes)
    (hne : n ≠ root.located) (hs : side.holds pos n.start n.stop = true)
    (hin : ∀ m ∈ root.nodes, n.Around m → m ≠ n → side.holds pos m.start m.stop = false) :
    ∃ ps, (root.focus pos side).chain = n :: ps := by
  obtain ⟨zs, ps, hchain⟩ := List.append_of_mem (mem_chain_of_holds hroot hn hs)
  cases zs with
  | nil => exact ⟨ps, hchain⟩
  | cons z zs =>
    exfalso
    obtain ⟨hz, hat⟩ := mem_chain_focus hroot (hchain ▸ List.mem_cons_self : z ∈ (root.focus pos side).chain)
    have hafter : n.Precedes z := by
      have hpairs : (root.focus pos side).chain.Pairwise fun l p => p.Precedes l := pairwise_chain hroot
      rw [hchain, List.cons_append, List.pairwise_cons] at hpairs
      exact hpairs.1 n (List.mem_append_right _ List.mem_cons_self)
    have hother : z ≠ n := by
      have hnodup : (root.focus pos side).chain.Nodup := nodup_chain hroot
      rw [hchain, List.cons_append, List.nodup_cons] at hnodup
      rintro rfl
      exact hnodup.1 (List.mem_append_right _ List.mem_cons_self)
    rcases hafter with ha | hbehind
    · rcases hat with rfl | hat
      · exact hne (eq_located_of_encloses hroot hn ha.encloses)
      · rw [hin z hz ha hother] at hat
        cases hat
    · rcases hat with rfl | hat
      · have hzero : root.located.start = 0 := rfl
        have := Side.lt_of_holds hs
        omega
      · rw [Side.holds_disjoint hs hbehind] at hat
        cases hat

theorem encloses_focus (hroot : root.isNode = true) {n : Located} (hn : n ∈ root.nodes) (hs : n.Spans pos) :
    n.encloses (root.focus pos .around).node = true :=
  (encloses_focus_iff hroot hn).2 (.inr (holds_around.2 hs))

theorem innermost_focus (hroot : root.isNode = true) (pos : Nat) :
    root.Innermost pos (root.focus pos .around).node := by
  obtain ⟨hmem, hnode⟩ := spans_focus hroot pos
  refine ⟨hmem, ?_, fun n => encloses_focus hroot⟩
  rcases hnode with heq | hs
  · by_cases hspans : root.located.Spans pos
    · exact .inl (heq ▸ hspans)
    · refine .inr ⟨heq, fun n hn hs => hspans ?_⟩
      rwa [← eq_located_of_encloses hroot hn (heq ▸ encloses_focus hroot hn hs)]
  · exact .inl hs

theorem isChain_climb (root : Tree) (pos : Nat) (side : Side) :
    (root.focus pos side).climb.chain.IsChain fun l p => l ∈ p.children :=
  (root.isChain_focus pos side).suffix (Focus.chain_climbFrom_suffix _ _)

theorem mem_chain_of_mem_climb {side : Side} {n : Located} (h : n ∈ (root.focus pos side).climb.chain) :
    n ∈ (root.focus pos side).chain :=
  (Focus.chain_climbFrom_suffix _ _).subset h

theorem node_climb_of_parents {side : Side} (h : (root.focus pos side).climb.parents = []) :
    (root.focus pos side).climb.node = root.located := by
  obtain ⟨zs, hzs⟩ : (root.focus pos side).climb.chain <:+ (root.focus pos side).chain :=
    Focus.chain_climbFrom_suffix _ _
  rw [Focus.chain, h, chain_focus] at hzs
  exact (List.cons.inj (List.append_inj' hzs rfl).2).1

theorem topmost_climb (hroot : root.isNode = true) (pos : Nat) (side : Side) :
    root.Topmost (root.focus pos side).node (root.focus pos side).climb.node := by
  refine ⟨Focus.reached_climbFrom ?_ (root.isChain_focus pos side), ?_⟩
  · intro p hp
    exact (mem_chain_focus hroot (List.mem_cons_of_mem _ hp)).1
  · rintro p ⟨hp, hchild, hstart⟩
    obtain ⟨i, hi⟩ := Located.address_of_mem_children hchild
    cases hparents : (root.focus pos side).climb.parents with
    | nil =>
      rw [node_climb_of_parents hparents] at hi
      exact absurd hi (by simp [located])
    | cons q qs =>
      -- `q` is a parent as well, and a node has only one
      have hchain := isChain_climb root pos side
      rw [Focus.chain, hparents, List.isChain_cons_cons] at hchain
      obtain ⟨j, hj⟩ := Located.address_of_mem_children hchain.1
      have hq : q ∈ (root.focus pos side).climb.chain := by
        rw [Focus.chain, hparents]
        exact List.mem_cons_of_mem _ List.mem_cons_self
      have haddress : p.address = q.address := (List.append_inj' (hi.symm.trans hj) rfl).1
      rw [eq_of_address hp (mem_chain_focus hroot (mem_chain_of_mem_climb hq)).1 haddress] at hstart
      exact Focus.start_ne_of_climbFrom hparents hstart

end Tree

namespace Cursor

/-- What reaches over the start of a line: the innermost such node, and from there up as far as nodes start at the same
place. -/
def across (c : Cursor) (l : Line) : Focus := (c.root.focus l.start .around).climb

def Rests (c : Cursor) (x : Located) (l : Line) : Prop :=
  (c.across l).parents = [] ∨ (c.across l).node.encloses x = true

inductive Settles (c : Cursor) (x : Located) : Line → Line → Prop
  | here {l : Line} : c.Rests x l → Settles c x l l
  | above {l m last : Line} : ¬ c.Rests x l → c.doc.lineAt (c.across l).node.start = .ok m →
      Settles c x m last → Settles c x l last

variable {c : Cursor} {x : Located} {l last : Line}

theorem across_of_not_rests (hroot : c.root.isNode = true) (h : ¬ c.Rests x l) :
    (c.across l).node ∈ c.root.nodes ∧ (c.across l).node.Spans l.start ∧
      (c.across l).node.encloses x = false := by
  rw [Rests, not_or, Bool.not_eq_true] at h
  obtain ⟨hmem, hnode⟩ := Tree.spans_of_mem_chain hroot (Focus.climb_node_mem (c.root.focus l.start .around))
  refine ⟨hmem, hnode.resolve_left fun heq => ?_, h.2⟩
  rw [across, heq] at h
  exact absurd h.2 (by simp [Located.encloses, Tree.located])

theorem above_lt (hroot : c.root.isNode = true) (h : ¬ c.Rests x l) :
    (c.doc.lineHolding (c.across l).node.start).start < l.start := by
  have hspans := (across_of_not_rests hroot h).2.1
  exact Nat.lt_of_le_of_lt (c.doc.lineHolding_start_le _) hspans.1

theorem baseLine_unfold (c : Cursor) (x : Located) (l : Line) :
    c.baseLine x l =
      if (c.across l).parents.isEmpty || (c.across l).node.encloses x then l
      else if (c.doc.lineHolding (c.across l).node.start).start < l.start then
        c.baseLine x (c.doc.lineHolding (c.across l).node.start)
      else l := by
  rw [baseLine]
  rfl

theorem rests_iff : ((c.across l).parents.isEmpty || (c.across l).node.encloses x) = true ↔ c.Rests x l := by
  rw [Bool.or_eq_true, List.isEmpty_iff]
  rfl

theorem baseLine_of_rests (h : c.Rests x l) : c.baseLine x l = l := by
  rw [baseLine_unfold, if_pos (rests_iff.2 h)]

theorem baseLine_of_not_rests (hroot : c.root.isNode = true) (h : ¬ c.Rests x l) :
    c.baseLine x l = c.baseLine x (c.doc.lineHolding (c.across l).node.start) := by
  rw [baseLine_unfold, if_neg (mt rests_iff.1 h), if_pos (above_lt hroot h)]

theorem lineAt_start (htext : c.root.text = c.doc.text) {n : Located} (hn : n ∈ c.root.nodes) :
    c.doc.lineAt n.start = .ok (c.doc.lineHolding n.start) := by
  obtain ⟨u, v, hu, hstart⟩ := Tree.text_of_mem_nodes hn
  rw [htext] at hu
  have hsize : n.start ≤ c.doc.size := by
    rw [c.doc.size_eq, hu, hstart, Text.byteLength_append]
    exact Nat.le_add_right _ _
  have hcut : Text.isBoundary n.start c.doc.text = true := by
    rw [← Text.isSome_cut?, hu, hstart, Text.cut?_append]
    rfl
  rw [Document.lineAt, Nat.min_eq_left hsize, if_pos hcut]

theorem settles_baseLine (hroot : c.root.isNode = true) (htext : c.root.text = c.doc.text) (x : Located) (l : Line) :
    c.Settles x l (c.baseLine x l) := by
  induction hn : l.start using Nat.strongRecOn generalizing l with
  | ind n ih =>
    by_cases h : c.Rests x l
    · rw [baseLine_of_rests h]
      exact .here h
    · rw [baseLine_of_not_rests hroot h]
      refine .above h (lineAt_start htext (across_of_not_rests hroot h).1) (ih _ ?_ _ rfl)
      rw [← hn]
      exact above_lt hroot h

theorem Settles.rests (h : c.Settles x l last) : c.Rests x last := by
  induction h with
  | here h => exact h
  | above _ _ _ ih => exact ih

theorem Settles.start_le (hroot : c.root.isNode = true) (h : c.Settles x l last) : last.start ≤ l.start := by
  induction h with
  | here _ => exact Nat.le_refl _
  | above hleave hm _ ih =>
    rw [Document.eq_of_lineAt hm] at ih
    exact Nat.le_trans ih (Nat.le_of_lt (above_lt hroot hleave))

theorem Settles.mem_lines (h : c.Settles x l last) (hl : l ∈ c.doc.lines) : last ∈ c.doc.lines := by
  induction h with
  | here _ => exact hl
  | above _ hm _ ih =>
    apply ih
    rw [Document.eq_of_lineAt hm]
    exact c.doc.lineHolding_mem _

theorem Settles.passes (hroot : c.root.isNode = true) (h : c.Settles x l last) {m : Line} (hm : m ∈ c.doc.lines)
    (hlast : last.start < m.start) (hle : m.start ≤ l.start) :
    ∃ n ∈ c.root.nodes, n.Spans m.start ∧ n.encloses x = false := by
  induction h with
  | here _ => exact absurd hlast (Nat.not_lt.2 hle)
  | @above l up last hleave hab _ ih =>
    rcases Nat.lt_or_ge up.start m.start with hlt | hge
    · obtain ⟨hmem, hspans, hx⟩ := across_of_not_rests hroot hleave
      rw [Document.eq_of_lineAt hab] at hlt
      have hstart := Document.lt_start_of_lineHolding hm hlt
      exact ⟨_, hmem, ⟨hstart, Nat.lt_of_le_of_lt hle hspans.2⟩, hx⟩
    · exact ih hlast hge

/-- `base` is the line that a node in effect starts on, and `own` the one it stands on. Every line between the two
starts inside of a node that is not around the given one, and what reaches over the start of `base` is. -/
structure IsBase (c : Cursor) (x : Located) (own base : Line) : Prop where
  lineAt_own : c.doc.lineAt x.start = .ok own
  lineAt_base : c.doc.lineAt base.start = .ok base
  settles : c.Settles x own base
  above : base.start ≤ own.start
  passed : ∀ l ∈ c.doc.lines, base.start < l.start → l.start ≤ own.start →
    ∃ n ∈ c.root.nodes, n.Spans l.start ∧ n.encloses x = false
  across : ∃ b a, c.root.Innermost base.start b ∧ c.root.Topmost b a ∧
    (a = c.root.located ∨ a.encloses x = true)

theorem isBase_baseLine (hroot : c.root.isNode = true) (htext : c.root.text = c.doc.text) (hx : x ∈ c.root.nodes) :
    c.IsBase x (c.doc.lineHolding x.start) (c.baseLine x (c.doc.lineHolding x.start)) := by
  have hs := settles_baseLine hroot htext x (c.doc.lineHolding x.start)
  have hbase := hs.mem_lines (c.doc.lineHolding_mem x.start)
  exact {
    lineAt_own := lineAt_start htext hx
    lineAt_base := Document.lineAt_append (p := []) hbase rfl
    settles := hs
    above := hs.start_le hroot
    passed := fun l hl => hs.passes hroot hl
    across := ⟨_, _, Tree.innermost_focus hroot _, Tree.topmost_climb hroot _ _,
      hs.rests.imp_left Tree.node_climb_of_parents⟩ }

/-- The base indentation of a node is that of the line the node in effect starts on. The search for this line ends, and
only columns that do not fit can be in the way of an answer. -/
theorem baseIndent_isBase (d : Document) (pos unit : Nat) {x : Located} (hx : x ∈ (parse d.text).nodes) :
    ∃ own base, IsBase ⟨parse d.text, d, pos, unit⟩ x own base ∧
      baseIndent ⟨parse d.text, d, pos, unit⟩ x = d.lineIndent base.start ∧
      ∀ e, d.lineIndent base.start = .error e → e = .columnOverflow := by
  have htext : (parse d.text).text = d.text := by rw [Tree.text, leaves_parse, Token.textOf_scan]
  have hbase := isBase_baseLine (c := ⟨parse d.text, d, pos, unit⟩) rfl htext hx
  exact ⟨_, _, hbase, rfl, fun e => Document.eq_of_lineIndent_error hbase.lineAt_base⟩

/-- What follows the quoted scalar in `a: "x⏎  y" b` in effect starts on the first line. -/
theorem baseIndent_isBase_behind_quote :
    ∃ x ∈ (parse (Document.ofText "a: \"x\n  y\" b".toList).text).nodes, x.kind = .error ∧
      (Document.ofText "a: \"x\n  y\" b".toList).lineIndent x.start = .ok 2 ∧
      ∃ own base, IsBase ⟨parse (Document.ofText "a: \"x\n  y\" b".toList).text,
          Document.ofText "a: \"x\n  y\" b".toList, 11, 2⟩ x own base ∧
        (Document.ofText "a: \"x\n  y\" b".toList).lineIndent base.start = .ok 0 := by
  have h : ∃ x ∈ (parse (Document.ofText "a: \"x\n  y\" b".toList).text).nodes, x.kind = .error ∧
      (Document.ofText "a: \"x\n  y\" b".toList).lineIndent x.start = .ok 2 ∧
      baseIndent ⟨parse (Document.ofText "a: \"x\n  y\" b".toList).text,
        Document.ofText "a: \"x\n  y\" b".toList, 11, 2⟩ x = .ok 0 := by
    decide +kernel
  obtain ⟨x, hx, hkind, hown, hindent⟩ := h
  obtain ⟨own, base, hbase, heq, -⟩ := baseIndent_isBase (Document.ofText "a: \"x\n  y\" b".toList) 11 2 hx
  exact ⟨x, hx, hkind, hown, own, base, hbase, heq.symm.trans hindent⟩

end Cursor

end LosslessYaml
