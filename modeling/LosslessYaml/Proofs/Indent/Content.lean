import LosslessYaml.Proofs.Fold.Nodes
import LosslessYaml.Proofs.Grammar.Origin
import LosslessYaml.Proofs.Indent.BaseLine
import LosslessYaml.Proofs.Text.Blanks

namespace LosslessYaml

open Text Grammar
open Token (textOf)

def Line.isBlank (l : Line) : Bool := l.text.all Text.isBlank

namespace Document

variable {d : Document} {a b : Nat} {l m : Line}

/-- The first of the lines that start between two offsets and hold more than blanks. -/
structure FirstFilled (d : Document) (a b : Nat) (l : Line) : Prop where
  mem : l ∈ d.lines
  start : a ≤ l.start
  stop : l.start < b
  filled : l.isBlank = false
  above : ∀ m ∈ d.lines, a ≤ m.start → m.start < l.start → m.isBlank = true

theorem eq_of_start_eq (hl : l ∈ d.lines) (hm : m ∈ d.lines) (h : l.start = m.start) : l = m := by
  have hl' := l.start_le_stop
  have hm' := m.start_le_stop
  rcases lines_apart hl hm with heq | hlt | hlt
  · exact heq
  · omega
  · omega

theorem exists_firstFilled (hm : m ∈ d.lines) (ha : a ≤ m.start) (hb : m.start < b) (hf : m.isBlank = false) :
    ∃ l, d.FirstFilled a b l := by
  have hfound : (d.lines.find? fun l => a ≤ l.start && !l.isBlank).isSome = true :=
    List.find?_isSome.2 ⟨m, hm, by simp [ha, hf]⟩
  obtain ⟨l, hl⟩ := Option.isSome_iff_exists.1 hfound
  obtain ⟨hl, above, below, hlines, habove⟩ := List.find?_eq_some_iff_append.1 hl
  have hp := d.pairwise_lines
  simp only [Bool.and_eq_true, decide_eq_true_eq, Bool.not_eq_true'] at hl
  -- a line above `l` is one that the search has passed
  have hpassed (k : Line) (hk : k ∈ d.lines) (ha : a ≤ k.start) (hf : k.isBlank = false) : l.start ≤ k.start := by
    rw [hlines] at hk hp
    rcases List.mem_append.1 hk with hk | hk
    · exact absurd (habove k hk) (by simp [ha, hf])
    · rcases List.mem_cons.1 hk with rfl | hk
      · exact Nat.le_refl _
      · have hlt := (List.pairwise_cons.1 (List.pairwise_append.1 hp).2.1).1 k hk
        exact Nat.le_trans l.start_le_stop (Nat.le_of_lt hlt)
  refine ⟨l, hlines ▸ List.mem_append_right _ List.mem_cons_self, hl.1, ?_, hl.2, ?_⟩
  · exact Nat.lt_of_le_of_lt (hpassed m hm ha hf) hb
  · intro k hk ha hlt
    cases hf : k.isBlank with
    | true => rfl
    | false => exact absurd (hpassed k hk ha hf) (Nat.not_le.2 hlt)

theorem FirstFilled.eq_of_start (h : d.FirstFilled a b l) (hm : m ∈ d.lines) (hs : m.start = a)
    (hf : m.isBlank = false) : m = l := by
  have hstart := h.start
  rcases Nat.lt_or_ge m.start l.start with hlt | hge
  · rw [h.above m hm (Nat.le_of_eq hs.symm) hlt] at hf
    cases hf
  · exact eq_of_start_eq hm h.mem (by omega)

theorem not_isBlank_of_token {t : Token} {ts us : List Token} (hs : Token.scan d.text = ts ++ t :: us)
    (hgap : isLineGap t.kind = false) : (d.lineHolding (byteLength (textOf ts))).isBlank = false := by
  have hkind : t.kind ≠ .whitespace ∧ t.kind ≠ .newline := by
    constructor <;> intro hk <;> rw [hk] at hgap <;> cases hgap
  have hparted : Token.Parted (textOf (ts ++ [t])) (textOf us) := by
    rw [List.append_cons] at hs
    exact Token.parted_scanFrom hs
  obtain ⟨c, lex, rfl, hrest, hedge⟩ := Token.exists_edged hs
  have hfeed : c ≠ '\n' := fun hc => hkind.2 (hedge.feeds hc)
  -- behind the first character of the token the line goes on
  have htext : d.text = textOf ts ++ [c] ++ (lex.tail ++ textOf us) := by
    rw [← Token.textOf_scan d.text, hs, Token.textOf_append, Token.textOf_cons]
    simp
  have hcut : Token.Parted (textOf ts ++ [c]) (lex.tail ++ textOf us) := by
    by_cases hc : c = '\r'
    · have htail := hedge.returns hc hkind.2
      rw [Token.textOf_append, Token.textOf_cons, htail] at hparted
      rw [htail]
      simpa using hparted
    · exact Token.parted_of_ne hc _
  have hsame := eq_of_start_eq (d.lineHolding_mem _) (d.lineHolding_mem _)
    (lineHolding_start_append htext (by simpa using Ne.symm hfeed))
  have hstop := le_lineHolding_stop htext hcut
  rw [hsame, byteLength_append, byteLength_cons] at hstop
  have hheld := d.lineHolding_start_le (byteLength (textOf ts))
  have hpos := c.utf8Size_pos
  cases hblank : (d.lineHolding (byteLength (textOf ts))).isBlank with
  | false => rfl
  | true =>
    have hbefore := Line.bare_start (d.lineHolding_mem _) (List.append_nil _).symm (List.all_eq_true.1 hblank) hs
      hkind.1 (by rw [Line.stop] at hstop; omega)
    omega

end Document

namespace Cursor

variable {d : Document} {x : Located} (hx : x ∈ (parse d.text).nodes) (hk : x.kind = .blockLiteralContent)
include hx hk

theorem contentOrigin : ∃ u v cs, d.text = u ++ v ∧ byteLength u = x.start ∧ x.tree = .node .blockLiteralContent cs ∧
    (∀ t ∈ cs, t.isNode = false) ∧ ContentOrigin u cs := by
  obtain ⟨u, ⟨hu, w, hw⟩, ho⟩ := origin_of_mem_nodes d.text hx
  have hobeys := Fold.obeys_of_mem_nodes hx
  have hnode := (List.mem_filter.1 hx).2
  rw [Located.kind] at hk
  cases htree : x.tree with
  | leaf t =>
    rw [htree] at hnode
    cases hnode
  | node k cs =>
    rw [htree] at ho hk hobeys
    change k = .blockLiteralContent at hk
    subst hk
    exact ⟨u, _, cs, hw.trans (List.append_assoc _ _ _), hu, rfl, hobeys.2, ho⟩

variable {pos : Nat} (hpos : x.start < pos) (hle : pos ≤ x.stop)
include hpos hle

theorem content_lines : (d.lineHolding x.start).start = x.start ∧ ∃ l, d.FirstFilled x.start x.stop l := by
  obtain ⟨u, v, cs, htext, hu, htree, -, ho⟩ := contentOrigin hx hk
  have hne : cs ≠ [] := by
    rintro rfl
    rw [Located.stop, htree, Tree.byteLength, Tree.byteLengthOf] at hle
    omega
  obtain ⟨hline, t, ht, hgap⟩ := ho.resolve_left hne
  have htop : (d.lineHolding x.start).start = x.start := by
    have hlast : lastLine u = [] := by
      rcases hline with rfl | ⟨w, rfl⟩
      · rfl
      · rw [lastLine_concat, if_pos rfl]
    rw [← hu, Document.lineHolding_start htext, hlast]
    rfl
  refine ⟨htop, ?_⟩
  obtain ⟨as, bs, hleaves⟩ := List.append_of_mem ht
  obtain ⟨ts, us, hscan, hstart⟩ := Fold.scan_of_mem_nodes hx
  have hscan' : Token.scan d.text = (ts ++ as) ++ t :: (bs ++ us) := by
    rw [hscan, htree, Tree.leaves, hleaves]
    simp only [List.append_assoc, List.cons_append]
  have hfront : byteLength (textOf (ts ++ as)) = x.start + byteLength (textOf as) := by
    rw [Token.textOf_append, byteLength_append, ← hstart]
  have hstop : x.stop = x.start + byteLength (textOf as) + byteLength t.text + byteLength (textOf bs) := by
    rw [Located.stop, Tree.byteLength_eq, Tree.text, htree, Tree.leaves, hleaves, Token.textOf_append,
      byteLength_append, Token.textOf_cons, byteLength_append, ← Nat.add_assoc, ← Nat.add_assoc]
  have hsize := Token.byteLength_text_pos hscan'
  have hheld := d.lineHolding_start_le (byteLength (textOf (ts ++ as)))
  refine Document.exists_firstFilled (d.lineHolding_mem _) ?_ ?_ (Document.not_isBlank_of_token hscan' hgap)
  · -- no line that starts earlier holds a place behind the start of the content
    apply Decidable.byContradiction
    intro hlt
    have := Document.lt_start_of_lineHolding (d.lineHolding_mem x.start) (htop.symm ▸ Nat.not_le.1 hlt)
    omega
  · omega

theorem content_chain : ∃ ps, ((parse d.text).focus pos .before).chain = x :: ps := by
  obtain ⟨u, v, cs, -, hu, htree, hflat, -⟩ := contentOrigin hx hk
  refine Tree.exists_chain rfl hx ?_ ?_ fun m hm ha hne => ?_
  · rintro rfl
    cases hk
  · simp only [Side.holds, Bool.and_eq_true, decide_eq_true_eq]
    exact ⟨hpos, hle⟩
  · -- there are only tokens below the content
    exfalso
    have hbelow := Tree.mem_preorderFrom_of_encloses hx hm ha.encloses
    rw [htree, Tree.preorderFrom, List.mem_cons, ← hu] at hbelow
    rcases hbelow with heq | hbelow
    · refine hne (heq.trans ?_)
      rw [hu, ← htree]
    · have hleaves : Tree.EveryOf (fun _ t => t.isNode = false) u cs := Tree.everyOf_leaves (fun _ _ => rfl) hflat u
      obtain ⟨-, -, hleaf⟩ := Tree.EveryOf.preorderOf x.address 0 hleaves m hbelow
      rw [(List.mem_filter.1 hm).2] at hleaf
      cases hleaf

theorem content_not_in_flow : ∀ n ∈ ((parse d.text).focus pos .before).chain, n.kind.isFlowCollection = false := by
  intro n hn
  obtain ⟨ps, hchain⟩ := content_chain hx hk hpos hle
  have hpairs : ((parse d.text).focus pos .before).chain.Pairwise fun l p => p.Precedes l := Tree.pairwise_chain rfl
  obtain ⟨hmem, hat⟩ := Tree.mem_chain_focus rfl hn
  rw [hchain] at hn hpairs
  cases hflow : n.kind.isFlowCollection with
  | false => rfl
  | true =>
    exfalso
    rcases List.mem_cons.1 hn with rfl | hn
    · rw [hk] at hflow
      cases hflow
    · have hstop : pos ≤ n.stop := by
        rcases hat with rfl | hat
        · cases hflow
        · simp only [Side.holds, Bool.and_eq_true, decide_eq_true_eq] at hat
          exact hat.2
      rcases (List.pairwise_cons.1 hpairs).1 n hn with ha | hbehind
      · have hpart := flowPart_of_encloses hmem hflow hx ha.encloses (List.mem_filter.1 hx).2
        obtain ⟨-, -, cs, -, -, htree, -⟩ := contentOrigin hx hk
        rw [htree] at hpart
        simp [Tree.isNodeOf, flowKinds] at hpart
      · omega

theorem baseIndent_content (unit : Nat) :
    baseIndent ⟨parse d.text, d, pos, unit⟩ x = d.lineIndent x.start := by
  obtain ⟨htop, -⟩ := content_lines hx hk hpos hle
  rw [baseIndent, baseLine_eq rfl, htop]
  intro a ha hstart hstop
  rw [htop] at hstart hstop
  rcases Tree.nodes_apart ha hx with rfl | (haround | hbehind) | hafter
  · omega
  · exact haround.encloses
  · omega
  · have := hafter.start_le
    omega

theorem indent_eq_baseIndent (unit : Nat) :
    indent ⟨parse d.text, d, pos, unit⟩ = (baseIndent ⟨parse d.text, d, pos, unit⟩ x).map some := by
  obtain ⟨ps, hchain⟩ := content_chain hx hk hpos hle
  have hroot : (parse d.text).located ∈ ((parse d.text).focus pos .before).chain := by
    rw [Tree.chain_focus]
    exact List.mem_append_right _ List.mem_cons_self
  have hfilled : x.tree.isEmpty = false := by
    rw [Located.stop] at hle
    rw [Tree.isEmpty, decide_eq_false_iff_not]
    omega
  have hopinion : opinion ⟨parse d.text, d, pos, unit⟩ x =
      (baseIndent ⟨parse d.text, d, pos, unit⟩ x).map Opinion.column := by
    rw [opinion, hk]
    simp only [hfilled, Bool.false_eq_true, if_false]
    rfl
  rw [indent, focus, indentAmong_eq_streamIndent (content_not_in_flow hx hk hpos hle) ⟨_, hroot, rfl⟩, streamIndent,
    focus, hchain, firstOpinion, if_neg (Nat.not_lt.2 hle), hopinion]
  cases baseIndent ⟨parse d.text, d, pos, unit⟩ x with
  | error e => rfl
  | ok k => rfl

/-- A new line inside of the content of a block scalar is indented like the line that the content starts with, and only
columns that do not fit are in the way of this answer. Some line of the content holds more than blanks; it is this first
line, unless that is blank. -/
theorem indent_content (unit : Nat) :
    ∃ top first, d.lineAt x.start = .ok top ∧ top.start = x.start ∧ d.FirstFilled x.start x.stop first ∧
      (top.isBlank = false → top = first) ∧
      (ofOffset (parse d.text) d pos unit).indent = (d.lineIndent top.start).map some ∧
      ∀ e, d.lineIndent top.start = .error e → e = .columnOverflow := by
  have hline := lineAt_start (c := ⟨parse d.text, d, pos, unit⟩) (text_parse d.text) hx
  obtain ⟨htop, first, hfirst⟩ := content_lines hx hk hpos hle
  have hmin : min pos d.size = pos := by
    obtain ⟨u, v, hd, hu⟩ := Tree.text_of_mem_nodes hx
    rw [text_parse] at hd
    rw [d.size_eq, hd, byteLength_append, byteLength_append, ← hu, ← Tree.byteLength_eq]
    rw [Located.stop] at hle
    omega
  refine ⟨_, first, hline, htop, hfirst, hfirst.eq_of_start (d.lineHolding_mem _) htop, ?_, ?_⟩
  · rw [ofOffset, hmin, indent_eq_baseIndent hx hk hpos hle, baseIndent_content hx hk hpos hle, htop]
  · rw [htop]
    exact fun e => Document.eq_of_lineIndent_error hline

omit hx hk hpos hle

theorem indent_content_level :
    ∃ x ∈ (parse (Document.ofText "a: |\n  x\n\n    y".toList).text).nodes, x.kind = .blockLiteralContent ∧
      ∃ first, (Document.ofText "a: |\n  x\n\n    y".toList).FirstFilled x.start x.stop first ∧
        (Document.ofText "a: |\n  x\n\n    y".toList).lineIndent first.start = .ok 2 ∧
        (ofOffset (parse (Document.ofText "a: |\n  x\n\n    y".toList).text)
          (Document.ofText "a: |\n  x\n\n    y".toList) 15 2).indent = .ok (some 2) := by
  have h : ∃ x ∈ (parse (Document.ofText "a: |\n  x\n\n    y".toList).text).nodes, x.kind = .blockLiteralContent ∧
      x.start < 15 ∧ 15 ≤ x.stop ∧
      (Document.ofText "a: |\n  x\n\n    y".toList).lineAt x.start = .ok ⟨2, 5, [' ', ' ', 'x']⟩ := by
    decide +kernel
  obtain ⟨x, hx, hk, hpos, hle, hline⟩ := h
  obtain ⟨top, first, htop, -, hfirst, hsame, hindent, -⟩ := indent_content hx hk hpos hle 2
  rw [hline] at htop
  cases htop
  obtain rfl := hsame (by decide)
  exact ⟨x, hx, hk, _, hfirst, by decide +kernel, hindent.trans (by decide +kernel)⟩

/-- In `a: |⏎⏎  x` the line of the `x` sets the indentation of the scalar, but a new line behind it is level with the
blank line. -/
theorem blank_line_sets_indent :
    ∃ x ∈ (parse (Document.ofText "a: |\n\n  x".toList).text).nodes, x.kind = .blockLiteralContent ∧
      x.start < 9 ∧ 9 ≤ x.stop ∧
      (Document.ofText "a: |\n\n  x".toList).FirstFilled x.start x.stop ⟨3, 6, [' ', ' ', 'x']⟩ ∧
      (Document.ofText "a: |\n\n  x".toList).lineIndent 6 = .ok 2 ∧
      (ofOffset (parse (Document.ofText "a: |\n\n  x".toList).text)
        (Document.ofText "a: |\n\n  x".toList) 9 2).indent = .ok (some 0) := by
  have h : ∃ x ∈ (parse (Document.ofText "a: |\n\n  x".toList).text).nodes, x.kind = .blockLiteralContent ∧
      x.start = 5 ∧ x.stop = 9 := by
    decide +kernel
  obtain ⟨x, hx, hk, hstart, hstop⟩ := h
  refine ⟨x, hx, hk, by rw [hstart]; decide, by rw [hstop], ?_, by decide +kernel, by decide +kernel⟩
  rw [hstart, hstop]
  exact ⟨by decide, by decide, by decide, by decide, by decide⟩

end Cursor

end LosslessYaml
