import LosslessYaml.Language
import LosslessYaml.Proofs.Fold.Nodes
import LosslessYaml.Proofs.Grammar.Origin
import LosslessYaml.Proofs.Indent.BaseLine
import LosslessYaml.Proofs.Text.Blanks

namespace LosslessYaml

namespace Grammar.Bracket

def closing : Bracket → Char
  | .square => ']'
  | .curly => '}'

theorem trimStart_closing (b : Bracket) {p : List Char} (hp : ∀ x ∈ p, Text.isBlank x = true) :
    Text.trimStart (p ++ [b.closing]) = [b.closing] := by
  rw [Text.trimStart_blanks hp]
  cases b <;> rfl

end Grammar.Bracket

open Text Grammar
open Token (textOf)

theorem Token.text_closer {s : List Char} {c : Token} {ts us : List Token} {b : Bracket}
    (h : scan s = ts ++ c :: us) (hc : c.kind = b.closer) : c.text = [b.closing] := by
  obtain ⟨x, l, rfl, -, hl⟩ := exists_edged h
  cases b with
  | square => exact hl.bracket hc
  | curly => exact hl.brace hc

/-- A flow collection whose closing bracket `c` stands alone on the line `l`, behind the blanks `p`. -/
structure Located.ClosesAlone (n : Located) (b : Bracket) (c : Token) (l : Line) (p : List Char) : Prop where
  kind : n.kind = b.collection
  last : n.tree.children.getLast? = some (.leaf c)
  closer : c.kind = b.closer
  text : l.text = p ++ c.text
  blank : ∀ x ∈ p, isBlank x = true
  stop : l.stop = n.stop

theorem Schema.FlowCollection.exists_closed {b : Bracket} {cs : List Tree} {c : Token} (h : FlowCollection b cs)
    (hlast : cs.getLast? = some (.leaf c)) (hc : c.kind = b.closer) :
    ∃ (o : Token) (body : List Tree), cs = .leaf o :: (body ++ [.leaf c]) ∧ o.kind = b.opener := by
  have hkind : b.closer ≠ b.opener ∧ b.closer.isTrivia = false ∧ b.closer ≠ .comma := by cases b <;> decide
  obtain ⟨opening, body, closing, rfl, ho, hclosing, hbody⟩ := h
  cases opening with
  | node k cs => cases ho
  | leaf o =>
    have ho : o.kind = b.opener := of_decide_eq_true ho
    rcases hclosing with rfl | ⟨t, rfl, -⟩
    · -- without its bracket a collection ends with something else
      exfalso
      rw [List.append_nil] at hlast
      rcases List.mem_cons.1 (List.mem_of_getLast? hlast) with heq | hmem
      · rw [Tree.leaf.inj heq, ho] at hc
        exact hkind.1 hc.symm
      · rcases hbody _ hmem with htrivia | hcomma | ⟨-, hnode⟩ | ⟨_, _, hpair, -⟩
        · rw [Tree.isTrivia, hc, hkind.2.1] at htrivia
          cases htrivia
        · exact hkind.2.2 (hc ▸ of_decide_eq_true hcomma)
        · cases hnode
        · cases hpair
    · rw [List.getLast?_concat] at hlast
      rw [Option.some.inj hlast]
      exact ⟨o, body, rfl, ho⟩

namespace Located.ClosesAlone

variable {d : Document} {n : Located} {b : Bracket} {c : Token} {l : Line} {p : List Char}
  (h : n.ClosesAlone b c l p) (hn : n ∈ (parse d.text).nodes)
include h hn

theorem exists_tree :
    ∃ (o : Token) (body : List Tree), n.tree = .node b.collection (.leaf o :: (body ++ [.leaf c])) ∧
      o.kind = b.opener := by
  have hobeys := Fold.obeys_of_mem_nodes hn
  have hkind := h.kind
  have hlast := h.last
  cases htree : n.tree with
  | leaf t =>
    rw [htree] at hlast
    cases hlast
  | node k cs =>
    rw [htree] at hobeys hlast
    rw [Located.kind, htree] at hkind
    change k = b.collection at hkind
    subst hkind
    have hcs : Schema.FlowCollection b cs := by cases b <;> exact hobeys
    obtain ⟨o, body, rfl, ho⟩ := hcs.exists_closed hlast h.closer
    exact ⟨o, body, rfl, ho⟩

theorem text_eq : c.text = [b.closing] := by
  obtain ⟨o, body, htree, -⟩ := h.exists_tree hn
  obtain ⟨ts, us, hscan, -⟩ := Fold.scan_of_mem_nodes hn
  have hleaves : Token.scan d.text = (ts ++ o :: Tree.leavesOf body) ++ c :: us := by
    rw [hscan, htree]
    simp [Tree.leaves, Tree.leavesOf]
  exact Token.text_closer hleaves h.closer

omit hn in
theorem stop_eq : n.stop = l.start + byteLength p + byteLength c.text := by
  rw [← h.stop, Line.stop, h.text, byteLength_append, Nat.add_assoc]

theorem start_lt (hl : l ∈ d.lines) : n.start < l.start := by
  obtain ⟨o, body, htree, ho⟩ := h.exists_tree hn
  obtain ⟨ts, us, hscan, hstart⟩ := Fold.scan_of_mem_nodes hn
  have hstop := h.stop_eq
  have hlen : n.stop = n.start + (byteLength o.text + Tree.byteLengthOf body + byteLength c.text) := by
    rw [Located.stop, htree, Tree.byteLength, Tree.byteLengthOf, Tree.byteLengthOf_append, Tree.byteLengthOf,
      Tree.byteLengthOf, Tree.byteLength, Tree.byteLength]
    omega
  have hleaves : n.tree.leaves = o :: Tree.leavesOf (body ++ [.leaf c]) := by rw [htree]; rfl
  rw [hleaves, List.cons_append] at hscan
  have hpos := Token.byteLength_text_pos hscan
  rw [hstart]
  refine Line.bare_start hl h.text h.blank hscan ?_ (by omega)
  rw [ho]
  cases b <;> decide

theorem inner_stop_lt (hl : l ∈ d.lines) {m : Located} (hm : m ∈ (parse d.text).nodes) (ha : n.Around m) :
    m.stop < l.start := by
  apply Decidable.byContradiction
  intro hge
  have hflow : n.kind.isFlowCollection = true := by rw [h.kind]; cases b <;> rfl
  obtain ⟨-, vs, t, hleaves, hbare⟩ := flowPart_of_encloses hn hflow hm ha.encloses (List.mem_filter.1 hm).2
  obtain ⟨ws, us, hscan, hmstart⟩ := Fold.scan_of_mem_nodes hm
  have hstop : m.stop = byteLength (textOf (ws ++ vs ++ [t])) := by
    rw [Located.stop, Tree.byteLength_eq, Tree.text, hleaves, hmstart, List.append_assoc, Token.textOf_append ws,
      byteLength_append]
  have hscan' : Token.scan d.text = (ws ++ vs) ++ t :: us := by
    rw [hscan, hleaves]
    simp only [List.append_assoc, List.singleton_append]
  have htext : l.text = p ++ b.closing :: [] := by rw [h.text, h.text_eq hn]
  have hbehind := Line.bare_stop hl htext h.blank (by cases b <;> decide) hscan' hbare (hstop ▸ Nat.not_lt.1 hge)
  have htrail : n.trail = byteLength c.text := by rw [trail, h.last]
  have hinside := ha.stop
  have hclose := h.stop_eq
  rw [htrail, hclose] at hinside
  omega

theorem exists_chain (hl : l ∈ d.lines) {pos : Nat} (hpos : l.start ≤ pos) (hle : pos ≤ l.start + byteLength p) :
    ∃ ps, ((parse d.text).focus pos .before).chain = n :: ps := by
  have hstart := h.start_lt hn hl
  have hstop := h.stop_eq
  refine Tree.exists_chain rfl hn ?_ ?_ fun m hm ha _ => ?_
  · intro heq
    have hkind := h.kind
    rw [heq] at hkind
    cases b <;> cases hkind
  · simp only [Side.holds, Bool.and_eq_true, decide_eq_true_eq]
    omega
  · have hinner := h.inner_stop_lt hn hl hm ha
    simp only [Side.holds, Bool.and_eq_false_iff, decide_eq_false_iff_not]
    omega

theorem reindents : Language.yaml.profile.reindents l.text = true := by
  have htrim := b.trimStart_closing h.blank
  rw [← h.text_eq hn, ← h.text, h.text_eq hn] at htrim
  cases b <;> simp [Profile.reindents, Language.profile, LinePattern.closingBracket, htrim, Bracket.closing]

end Located.ClosesAlone

namespace Cursor

variable {d : Document} {n : Located} {b : Bracket} {c : Token} {l : Line} {p : List Char}

theorem indentAmong_flow {cur : Cursor} {ns : List Located} (hk : n.kind = b.collection) (hin : cur.pos < n.stop) :
    cur.indentAmong (n :: ns) = (cur.delimitedIndent b.closing n).map some := by
  have hinside (k : Kind) : cur.insideBrackets k n = true := by
    rw [insideBrackets, decide_eq_true hin]
    rfl
  cases b <;> simp only [indentAmong, hk, Bracket.collection, hinside, if_true] <;> rfl

theorem delimitedIndent_closing {cur : Cursor} {x : Char} {v : List Char} (hafter : cur.textAfter = .ok v)
    (hv : (trimStart v).head? = some x) : cur.delimitedIndent x n = cur.baseIndent n := by
  rw [delimitedIndent, hafter]
  cases cur.baseIndent n with
  | error e => rfl
  | ok k => exact if_pos hv

/-- Where the closing bracket of a flow collection stands alone on its line, the line is to be indented anew, and the
column for it is the base indentation of this collection, from every place up to the bracket. Only columns that do not
fit can be in the way of this answer. -/
theorem indent_closing (pos unit : Nat) (hn : n ∈ (parse d.text).nodes) (hl : l ∈ d.lines) (h : n.ClosesAlone b c l p)
    (hpos : l.start ≤ pos) (hle : pos ≤ l.start + byteLength p) :
    Language.yaml.profile.reindents l.text = true ∧
      (ofOffset (parse d.text) d pos unit).indent =
        ((ofOffset (parse d.text) d pos unit).baseIndent n).map some ∧
      ∀ e, (ofOffset (parse d.text) d pos unit).baseIndent n = .error e → e = .columnOverflow := by
  have hbase := isBase_baseLine (c := ofOffset (parse d.text) d pos unit) rfl (text_parse d.text) hn
  refine ⟨h.reindents hn, ?_, fun e => Document.eq_of_lineIndent_error hbase.lineAt_base⟩
  have hstop := h.stop_eq
  have htext := h.text_eq hn
  have hsize := Document.stop_le_size hl
  have hone : 0 < byteLength c.text := by
    rw [htext, byteLength_cons]
    have := b.closing.utf8Size_pos
    omega
  have hmin : min pos d.size = pos := by
    rw [h.stop] at hsize
    omega
  obtain ⟨ps, hchain⟩ := h.exists_chain hn hl hpos hle
  obtain ⟨p', hp', hafter⟩ := Document.textAfter_blanks hl h.text h.blank hpos hle
  have hdelimited : delimitedIndent ⟨parse d.text, d, pos, unit⟩ b.closing n =
      baseIndent ⟨parse d.text, d, pos, unit⟩ n := by
    refine delimitedIndent_closing hafter ?_
    rw [htext, b.trimStart_closing hp']
    rfl
  rw [ofOffset, hmin, indent, focus, hchain, indentAmong_flow h.kind (show pos < n.stop by omega), hdelimited]

/-- The sequence in `k: [⏎ {x,⏎ ]` decides about its last line, and not the mapping that was never closed. -/
theorem indent_closing_behind_open :
    ∃ n ∈ (parse (Document.ofText "k: [\n  \x7bx,\n  ]".toList).text).nodes, n.kind = .flowSequence ∧
      ∃ l ∈ (Document.ofText "k: [\n  \x7bx,\n  ]".toList).lines,
        Language.yaml.profile.reindents l.text = true ∧
          (ofOffset (parse (Document.ofText "k: [\n  \x7bx,\n  ]".toList).text)
            (Document.ofText "k: [\n  \x7bx,\n  ]".toList) 12 2).indent = .ok (some 0) := by
  have h : ∃ n ∈ (parse (Document.ofText "k: [\n  \x7bx,\n  ]".toList).text).nodes, n.kind = .flowSequence ∧
      n.stop = 14 ∧ (n.tree.children.getLast?.map fun t => (t.isNode, t.leaves)) = some (false, [⟨.rbracket, [']']⟩]) ∧
      (ofOffset (parse (Document.ofText "k: [\n  \x7bx,\n  ]".toList).text)
        (Document.ofText "k: [\n  \x7bx,\n  ]".toList) 12 2).baseIndent n = .ok 0 := by
    decide +kernel
  obtain ⟨n, hn, hkind, hstop, hlast, hbase⟩ := h
  have hline : (⟨3, 11, [' ', ' ', ']']⟩ : Line) ∈ (Document.ofText "k: [\n  \x7bx,\n  ]".toList).lines := by decide
  have hlast' : n.tree.children.getLast? = some (.leaf ⟨.rbracket, [']']⟩) := by
    obtain ⟨t, ht, heq⟩ := Option.map_eq_some_iff.1 hlast
    cases t with
    | node k cs => cases heq
    | leaf x =>
      rw [ht, ← (List.cons.inj (Prod.mk.inj heq).2).1]
  have hclose : n.ClosesAlone .square ⟨.rbracket, [']']⟩ ⟨3, 11, [' ', ' ', ']']⟩ [' ', ' '] :=
    ⟨hkind, hlast', rfl, rfl, List.all_eq_true.1 rfl, hstop.symm⟩
  obtain ⟨hreindents, hindent, -⟩ := indent_closing 12 2 hn hline hclose (by decide) (by decide)
  rw [hbase] at hindent
  exact ⟨n, hn, hkind, _, hline, hreindents, hindent⟩

end Cursor

end LosslessYaml
