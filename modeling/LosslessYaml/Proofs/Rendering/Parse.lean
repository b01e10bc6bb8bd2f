import LosslessYaml.Proofs.Rendering.Value
import LosslessYaml.Proofs.Writing.Parse

namespace LosslessYaml

namespace Rendering

open Token Placed Grammar Rule
open Writing (Word Head Shape Break Breaks EndsLine Ends Opens Style spaces space indentTrees breakTrees read read_nil read_break
  read_space read_spaces read_lexeme read_word gives_opens gives_spaces gives_break gives_breakTrees)

section Trivia

variable {n : Nat} {fresh glued : Bool} {s : List Char}

theorem read_remark (r : Remark) (hs : Breaks s) :
    read n fresh false ('#' :: r.chars ++ s) = ⟨⟨.comment, '#' :: r.chars⟩, n, fresh⟩ ::
      read (n + (r.chars.length + 1)) false true s := by
  have hp : ∀ c ∈ r.chars, (c ≠ '\r' && c ≠ '\n') = true := by
    intro c hc
    have h₁ : c ≠ '\r' := fun h => r.no_cr (h ▸ hc)
    have h₂ : c ≠ '\n' := fun h => r.no_lf (h ▸ hc)
    simp [h₁, h₂]
  have hs' : ∀ c ∈ s.head?, (c ≠ '\r' && c ≠ '\n') = false := by
    rcases hs with rfl | ⟨b, t, rfl⟩
    · simp
    · cases b <;> simp [Break.text]
  have hn : '\n' ∉ '#' :: r.chars := by
    intro h
    rcases List.mem_cons.1 h with h | h
    · cases h
    · exact r.no_lf h
  obtain ⟨ht, hd⟩ := Writing.takeWhile_append_of_all hp hs'
  have hl : lexeme false '#' (r.chars ++ s) = ⟨.comment, r.chars, s⟩ := by
    have hr : Token.hash false (r.chars ++ s) = ⟨.comment, r.chars, s⟩ := by
      rw [Token.hash, if_neg (by simp), run, ht, hd]
    exact hr
  have hr := read_lexeme n fresh hl
  rw [Writing.columnAfter_of_not_mem hn] at hr
  exact hr

theorem isBlank_remarkText (r : Option Remark) (hs : Breaks s) :
    ∀ c ∈ (remarkText r ++ s).head?, Text.isBlank c = false := by
  cases r with
  | none => exact hs.isBlank
  | some r => simp [remarkText, Text.isBlank]

/-- Text up to the end of a line is trivia, wherever it starts and whatever is read behind it. -/
def Passes (glued : Bool) (u : List Char) (ts : List Tree) : Prop :=
  ∀ n fresh s, Breaks s → ∃ n' fresh' glued', ∀ cs vs, Gives trivia (read n' fresh' glued' s) cs vs →
    Gives trivia (read n fresh glued (u ++ s)) (ts ++ cs) vs

theorem passes_nil (glued : Bool) : Passes glued [] [] := fun n fresh _ _ => ⟨n, fresh, glued, fun _ _ h => h⟩

theorem passes_remarkText (r : Option Remark) : Passes false (remarkText r) (remarkTrees r) := by
  cases r with
  | none => exact passes_nil false
  | some r =>
    intro n fresh s hs
    rw [remarkText, read_remark r hs]
    exact ⟨_, _, _, fun _ _ h => gives_trivia_cons rfl h⟩

theorem Filler.passes (f : Filler) : Passes false f.text f.trees := by
  intro n fresh s hs
  obtain ⟨n', fresh', glued', h⟩ := passes_remarkText f.remark (n + f.indent) fresh s hs
  refine ⟨n', fresh', glued', fun cs vs hvs => ?_⟩
  rw [Filler.text, Filler.trees, List.append_assoc, List.append_assoc]
  exact gives_spaces f.indent (isBlank_remarkText _ hs) (h cs vs hvs)

theorem breaks_fillersText (fs : List (Break × Filler)) (hs : Breaks s) :
    Breaks (fillersText fs ++ s) := by
  cases fs with
  | nil => exact hs
  | cons f fs =>
    refine .inr ⟨f.1, f.2.text ++ fillersText fs ++ s, ?_⟩
    simp [fillersText]

theorem passes_fillersText (fs : List (Break × Filler)) (glued : Bool) :
    Passes glued (fillersText fs) (fillersTrees fs) := by
  induction fs generalizing glued with
  | nil => exact passes_nil glued
  | cons f fs ih =>
    intro n fresh s hs
    obtain ⟨n', fresh', glued', hf⟩ := f.2.passes 0 true _ (breaks_fillersText fs hs)
    obtain ⟨n'', fresh'', glued'', hfs⟩ := ih glued' n' fresh' s hs
    refine ⟨n'', fresh'', glued'', fun cs vs hvs => ?_⟩
    have h : Gives trivia (read n fresh glued (f.1.text ++ _)) _ _ := gives_break f.1 (hf _ _ (hfs cs vs hvs))
    simpa [fillersText, fillersTrees] using h

theorem passes_endRemarkText (r : Option Remark) (glued : Bool) :
    Passes glued (endRemarkText r) (endRemarkTrees r) := by
  cases r with
  | none => exact passes_nil glued
  | some r =>
    intro n fresh s hs
    rw [endRemarkText, List.cons_append, read_space (by simp [Text.isBlank]), read_remark r hs]
    exact ⟨_, _, _, fun _ _ h => gives_trivia_cons rfl (gives_trivia_cons rfl h)⟩

theorem Ending.passes (e : Ending) (glued : Bool) : Passes glued e.text e.trees := by
  intro n fresh s hs
  obtain ⟨n', fresh', glued', hr⟩ := passes_endRemarkText e.remark glued n fresh _ (breaks_fillersText e.fillers hs)
  obtain ⟨n'', fresh'', glued'', hfs⟩ := passes_fillersText e.fillers glued' n' fresh' s hs
  refine ⟨n'', fresh'', glued'', fun cs vs hvs => ?_⟩
  rw [Ending.text, Ending.trees, List.append_assoc, List.append_assoc]
  exact hr _ _ (hfs cs vs hvs)

theorem Ending.endsLine (e : Ending) (hs : Breaks s) : EndsLine (e.text ++ s) := by
  have hbreaks := breaks_fillersText e.fillers hs
  rw [Ending.text, List.append_assoc]
  cases e.remark with
  | none => exact hbreaks.endsLine
  | some r =>
    refine ⟨.inr ⟨_, rfl⟩, fun n fresh glued => ?_⟩
    rw [endRemarkText, List.cons_append, read_space (by simp [Text.isBlank]), read_remark r hbreaks]
    rfl

theorem Ending.gives (e : Ending) (n : Nat) : Gives trivia (read n false true e.text) e.trees [] := by
  obtain ⟨n', fresh', glued', h⟩ := e.passes true n false [] (.inl rfl)
  have hnil : Gives trivia (read n' fresh' glued' []) [] [] := by
    rw [read_nil]
    rfl
  have hall := h [] [] hnil
  rwa [List.append_nil, List.append_nil] at hall

theorem Gap.gives (g : Gap) (d : Nat) (hs : Opens s) (n : Nat) :
    Gives trivia (read n false true (g.text ++ (spaces d ++ s))) (g.trees d) (read d true false s) := by
  obtain ⟨n', fresh', glued', h⟩ := g.toEnding.passes true n false (g.last.text ++ (spaces d ++ s)) (.inr ⟨_, _, rfl⟩)
  rw [Gap.text, List.append_assoc]
  exact h _ _ (gives_breakTrees g.last d hs)

theorem gives_before (fs : List (Filler × Break)) (hs : Opens s) :
    Gives trivia (read 0 true false (beforeText fs ++ s)) (beforeTrees fs) (read 0 true false s) := by
  induction fs with
  | nil => exact gives_opens hs 0 true false
  | cons f fs ih =>
    obtain ⟨n', fresh', glued', h⟩ := f.1.passes 0 true (f.2.text ++ (beforeText fs ++ s)) (.inr ⟨_, _, rfl⟩)
    have hall := h _ _ (gives_break f.2 ih)
    simpa [beforeText, beforeTrees] using hall

end Trivia

instance : style.Gapped where
  endsLine_gap (g : Gap) s := by
    change EndsLine (g.text ++ s)
    rw [Gap.text, List.append_assoc]
    exact g.toEnding.endsLine (.inr ⟨_, _, rfl⟩)
  endsLine_ending (e : Ending) := by
    have h := e.endsLine (s := []) (.inl rfl)
    rwa [List.append_nil] at h
  gives_gap (g : Gap) d _ hs n := g.gives d hs n
  gives_ending (e : Ending) n := e.gives n

instance : style.Lawful where
  bare_inline (w : Word) r := (w.opens r).isBlank
  reads_inline (w : Word) _ hr n := Writing.reads_word w hr n

section Root

theorem Root.opens (x : Root) (r : List Char) : Opens (x.text ++ r) := by
  cases x with
  | word w => exact w.opens r
  | collection b => exact b.opens r

theorem Root.gives (x : Root) (e : Ending) :
    contentAhead (read 0 true false (x.text ++ e.text)) = true ∧
      ∃ n, Gives (blockNode 0) (read 0 true false (x.text ++ e.text)) [x.tree] (read n false true e.text) := by
  have he (p : List Placed → Prop) : Ends style p e.text := Ends.ending (S := style) e
  cases x with
  | word w =>
    have hfollows := he fun _ => False
    have hword := Writing.isWord_read w 0 true
    rw [Root.text, read_word w hfollows.endsLine.spaced.isPlain]
    refine ⟨?_, _, gives_blockNode (gives_bareNode hword (hfollows.endsLine.atLineEnd _ _ _) ?_) (hword.atProperty _)⟩
    · simp [contentAhead, pastTrivia, atMarker, atIndicator, Placed.kind, Kind.isTrivia]
    · exact plainContinues_of_pastTrivia (hfollows.pastTrivia.imp_right False.elim)
  | collection b =>
    exact ⟨(b.heads e.text 0 true false).1.contentAhead, Writing.gives_collection b.reads (he _) 0 true false⟩

end Root

theorem parse_text (r : Rendering) : parse r.text = r.tree := by
  obtain ⟨hc, n, h⟩ := r.root.gives r.after
  have hopens := r.root.opens r.after.text
  have ht : (next (read 0 true false (r.root.text ++ r.after.text))).isTrivia = false := by
    obtain ⟨t, ts, hread, hk⟩ := Writing.read_opens hopens 0 true false
    rw [hread]
    exact hk
  have hd := gives_documents (gives_before r.before hopens) ht hc h (r.after.gives n)
  rw [parse, Tree.ofPlaced, text, List.append_assoc]
  exact congrArg (fun p => Tree.node .stream p.trees) hd

section Strip

open LosslessYaml.Tree (pruneOf pruneOf_append pruneOf_trivia containers)

theorem isTrivia_indentTrees (d : Nat) : ∀ t ∈ indentTrees d, t.isTrivia = true := by
  cases d with
  | zero => exact List.forall_mem_nil _
  | succ d => exact List.forall_mem_singleton.2 rfl

theorem isTrivia_breakTrees (e : Break) (d : Nat) : ∀ t ∈ breakTrees e d, t.isTrivia = true :=
  List.forall_mem_cons.2 ⟨rfl, isTrivia_indentTrees d⟩

theorem Filler.isTrivia (f : Filler) : ∀ t ∈ f.trees, t.isTrivia = true := by
  refine List.forall_mem_append.2 ⟨isTrivia_indentTrees f.indent, ?_⟩
  cases f.remark with
  | none => exact List.forall_mem_nil _
  | some r => exact List.forall_mem_singleton.2 rfl

theorem Ending.isTrivia (e : Ending) : ∀ t ∈ e.trees, t.isTrivia = true := by
  refine List.forall_mem_append.2 ⟨?_, fun t ht => ?_⟩
  · cases e.remark with
    | none => exact List.forall_mem_nil _
    | some r => exact List.forall_mem_cons.2 ⟨rfl, List.forall_mem_singleton.2 rfl⟩
  · obtain ⟨f, -, ht⟩ := List.mem_flatMap.1 ht
    rcases List.mem_cons.1 ht with rfl | ht
    · rfl
    · exact f.2.isTrivia t ht

theorem Gap.isTrivia (g : Gap) (d : Nat) : ∀ t ∈ g.trees d, t.isTrivia = true :=
  List.forall_mem_append.2 ⟨g.toEnding.isTrivia, isTrivia_breakTrees g.last d⟩

theorem isTrivia_beforeTrees (fs : List (Filler × Break)) : ∀ t ∈ beforeTrees fs, t.isTrivia = true := by
  intro t ht
  obtain ⟨f, -, ht⟩ := List.mem_flatMap.1 ht
  rcases List.mem_append.1 ht with ht | ht
  · exact f.1.isTrivia t ht
  · rw [List.mem_singleton.1 ht]
    rfl

variable {k : Shape} {c : Nat}

theorem pruneOf_head (h : Head k) : pruneOf (· ∈ containers) h.trees = h.trees := by
  cases h <;> rfl

theorem pruneOf_anchor (anchor : Option Word) :
    pruneOf (· ∈ containers) (Writing.anchorTrees anchor) = anchorTrees anchor := by
  cases anchor <;> rfl

theorem pruneOf_entry (h : Head k) (s : Slot k c) {v : Value}
    (hs : pruneOf (· ∈ containers) s.trees = anchorTrees s.anchor ++ [v.tree]) (ts : List Tree) :
    pruneOf (· ∈ containers) (.node k.entry (h.trees ++ s.trees) :: ts) =
      .node k.entry (h.trees ++ anchorTrees s.anchor ++ [v.tree]) :: pruneOf (· ∈ containers) ts := by
  have hk : decide (k.entry ∈ containers) = true := by cases k <;> rfl
  rw [Tree.pruneOf_node, Tree.prune_node hk, pruneOf_append, pruneOf_head, hs, List.append_assoc]

theorem pruneOf_collection {b : Block k c} (hb : pruneOf (· ∈ containers) b.trees = b.members.trees) :
    pruneOf (· ∈ containers) [.node k.collection b.trees] = [(Value.collection b.members).tree] := by
  have hk : decide (k.collection ∈ containers) = true := by cases k <;> rfl
  rw [Tree.pruneOf_node, Tree.prune_node hk, hb]
  rfl

mutual

theorem pruneOf_block {k : Shape} {c : Nat} :
    ∀ b : Block k c, pruneOf (· ∈ containers) b.trees = (Block.members b).trees
  | .last h s => pruneOf_entry h s (pruneOf_slot s) []
  | .more h s g rest => by
    rw [Writing.Block.trees, pruneOf_entry h s (pruneOf_slot s), pruneOf_append, pruneOf_trivia (Gap.isTrivia g c),
      List.nil_append, pruneOf_block rest]
    rfl

theorem pruneOf_slot {k : Shape} {c : Nat} :
    ∀ s : Slot k c, pruneOf (· ∈ containers) s.trees = anchorTrees s.anchor ++ [(Slot.value s).tree]
  | .inline anchor w => by
    rw [Writing.Slot.trees, pruneOf_append, pruneOf_anchor]
    rfl
  | .nested (d := d) anchor g _ b => by
    rw [Writing.Slot.trees, pruneOf_append, pruneOf_append, pruneOf_anchor, pruneOf_trivia (Gap.isTrivia g d),
      List.nil_append, pruneOf_collection (pruneOf_block b)]
    rfl
  | .compact b => pruneOf_collection (pruneOf_block b)

end

theorem pruneOf_root (x : Root) : pruneOf (· ∈ containers) [x.tree] = [x.value.tree] := by
  cases x with
  | word w => rfl
  | collection b => exact pruneOf_collection (pruneOf_block b)

theorem strip_tree (r : Rendering) : r.tree.strip = .node .stream [.node .document [r.value.tree]] := by
  rw [tree, Tree.strip, Tree.prune_node rfl, pruneOf_append, pruneOf_trivia (isTrivia_beforeTrees r.before),
    List.nil_append, Tree.pruneOf_node, Tree.prune_node rfl, pruneOf_root,
    pruneOf_trivia r.after.isTrivia]
  rfl

end Strip

end Rendering

/-- Block values survive being written and parsed: every value has a rendering, and every rendering is parsed
to a single document with the value's tree, up to trivia. -/
theorem parse_rendering :
    (∀ v : Rendering.Value, ∃ r : Rendering, r.value = v) ∧
      ∀ r : Rendering,
        (parse r.text).strip = .node .stream [.node .document [r.value.tree]] := by
  refine ⟨fun v => ⟨.ofValue v, Rendering.value_ofValue v⟩, fun r => ?_⟩
  rw [r.parse_text, r.strip_tree]

example : (Rendering.mk [] (.collection (.last (.key ⟨['k'], by decide, List.all_eq_true.1 rfl⟩)
      (.nested none ⟨⟨some ⟨['x'], by decide, by decide⟩, []⟩, .lf⟩ (.inr ⟨rfl, rfl, rfl⟩)
        (.last .dash (.inline none ⟨['a'], by decide, List.all_eq_true.1 rfl⟩))))) ⟨none, []⟩).text =
    ['k', ':', ' ', '#', 'x', '\n', '-', ' ', 'a'] :=
  rfl

end LosslessYaml
