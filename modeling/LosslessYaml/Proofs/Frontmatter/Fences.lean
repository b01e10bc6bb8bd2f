import LosslessYaml.Mixed
import LosslessYaml.Proofs.Text.Lines
import LosslessYaml.Proofs.Tree.Schema

namespace LosslessYaml

open Text

namespace Frontmatter

def dashes : List Char := ['-', '-', '-']

def BrokenFence (l : List Char) : Prop := l = dashes ++ ['\n'] ∨ l = dashes ++ ['\r', '\n']

/-- A line of three dashes in front of the text `after`. -/
def Fence (l after : List Char) : Prop := BrokenFence l ∨ l = dashes ∧ after = []

structure Fenced (s opening content closing body : List Char) : Prop where
  text : s = opening ++ content ++ closing ++ body
  opens : BrokenFence opening
  lines : AtLineStart content
  closes : Fence closing body

def Unfenced (s : List Char) : Prop := ∀ u l v, s = u ++ l ++ v → AtLineStart u → ¬ Fence l v

theorem BrokenFence.line {l : List Char} (h : BrokenFence l) : ∃ w, l = w ++ ['\n'] ∧ '\n' ∉ w := by
  rcases h with rfl | rfl
  · exact ⟨dashes, rfl, by decide⟩
  · exact ⟨dashes ++ ['\r'], rfl, by decide⟩

theorem BrokenFence.isFence {l : List Char} (h : BrokenFence l) : isFence l = true := by
  rcases h with rfl | rfl <;> decide

theorem Fence.isFence {l after : List Char} (h : Fence l after) : isFence l = true := by
  rcases h with h | ⟨rfl, -⟩
  · exact h.isFence
  · decide

theorem fence_of_isFence {l : List Char} (h : isFence l = true) : BrokenFence l ∨ l = dashes := by
  have hc : Line.chomp l = dashes := of_decide_eq_true h
  rcases Line.chomp_cases l with hl | hl | hl
  · exact .inr (hl.trans hc)
  · exact .inl (.inl (hc ▸ hl))
  · exact .inl (.inr (hc ▸ hl))

theorem brokenFence_of_isFence {l : List Char} (h : isFence l = true) (hl : '\n' ∈ l) :
    BrokenFence l := by
  rcases fence_of_isFence h with hf | rfl
  · exact hf
  · exact absurd hl (by decide)

theorem split_brokenFence {l : List Char} (h : BrokenFence l) (s : List Char) :
    Line.split (l ++ s) = l :: Line.split s := by
  obtain ⟨w, rfl, hw⟩ := h.line
  rw [List.append_assoc]
  exact Line.split_line hw s

theorem split_fence {l after : List Char} (h : Fence l after) :
    ∃ rest, Line.split (l ++ after) = l :: rest ∧ rest.flatten = after := by
  rcases h with h | ⟨rfl, rfl⟩
  · exact ⟨Line.split after, split_brokenFence h after, Line.flatten_split after⟩
  · exact ⟨[], rfl, rfl⟩

section Fenced

variable {s opening content closing body : List Char}

theorem Fenced.split (h : Fenced s opening content closing body) :
    ∃ ls rest, Line.split s = opening :: (ls ++ closing :: rest) ∧ ls.flatten = content ∧
      rest.flatten = body ∧ (Unfenced content → ∀ l ∈ ls, isFence l = false) := by
  obtain ⟨rfl, ho, hc, hz⟩ := h
  obtain ⟨rest, hrest, hbody⟩ := split_fence hz
  obtain ⟨ls, hls, hcontent, hlines⟩ := Line.split_append hc (closing ++ body)
  refine ⟨ls, rest, ?_, hcontent, hbody, ?_⟩
  · rw [List.append_assoc, List.append_assoc, split_brokenFence ho, hls, hrest]
  · intro hu l hl
    obtain ⟨hbreak, u, v, hs, hstart⟩ := hlines l hl
    apply Bool.eq_false_iff.2
    intro hf
    have hn : l ≠ [] := by
      rintro rfl
      cases hf
    exact hu u l v hs hstart (.inl (brokenFence_of_isFence hf (hbreak.mem hn)))

theorem ofText?_of_fenced (h : Fenced s opening content closing body) (hu : Unfenced content) :
    ofText? s = some ⟨opening, content, closing, body⟩ := by
  obtain ⟨ls, rest, hs, hcontent, hbody, hls⟩ := h.split
  have hall : ∀ l ∈ ls, (!isFence l) = true := by
    intro l hl
    rw [hls hu l hl]
    rfl
  have hd : (ls ++ closing :: rest).dropWhile (!isFence ·) = closing :: rest := by
    rw [List.dropWhile_append_of_pos hall, List.dropWhile_cons_of_neg (by simp [h.closes.isFence])]
  have ht : (ls ++ closing :: rest).takeWhile (!isFence ·) = ls := by
    rw [List.takeWhile_append_of_pos hall, List.takeWhile_cons_of_neg (by simp [h.closes.isFence]),
      List.append_nil]
  rw [ofText?, hs, ofLines?, if_pos h.opens.isFence]
  simp only [hd, ht, hcontent, hbody]

theorem prefix_takeWhile_append (ls rest : List (List Char)) {l : List Char} (h : isFence l = true) :
    (ls ++ l :: rest).takeWhile (!isFence ·) <+: ls := by
  rw [List.takeWhile_append]
  split
  · have hrest : (l :: rest).takeWhile (!isFence ·) = [] := List.takeWhile_cons_of_neg (by simp [h])
    exact ⟨[], by rw [hrest, List.append_nil, List.append_nil]⟩
  · exact List.takeWhile_prefix _

theorem Fenced.ofText? (h : Fenced s opening content closing body) :
    ∃ f, ofText? s = some f ∧ f.content <+: content := by
  obtain ⟨ls, rest, hs, hcontent, -, -⟩ := h.split
  have hz := h.closes.isFence
  have hd : (ls ++ closing :: rest).dropWhile (!isFence ·) ≠ [] := by
    intro hd
    have hall := List.takeWhile_append_dropWhile (p := (!isFence ·)) (l := ls ++ closing :: rest)
    rw [hd, List.append_nil] at hall
    have hmem : closing ∈ (ls ++ closing :: rest).takeWhile (!isFence ·) := by simp [hall]
    have hnot := List.all_eq_true.1 List.all_takeWhile closing hmem
    simp [hz] at hnot
  obtain ⟨last, tail, hlast⟩ := List.exists_cons_of_ne_nil hd
  refine ⟨⟨opening, ((ls ++ closing :: rest).takeWhile (!isFence ·)).flatten, last, tail.flatten⟩, ?_, ?_⟩
  · rw [Frontmatter.ofText?, hs, ofLines?, if_pos h.opens.isFence, hlast]
  · obtain ⟨more, hmore⟩ := prefix_takeWhile_append ls rest hz
    refine ⟨more.flatten, ?_⟩
    rw [← List.flatten_append, hmore]
    exact hcontent

theorem ofLines?_eq_some {lines : List (List Char)} {f : Frontmatter} (h : ofLines? lines = some f) :
    ∃ us rest, lines = f.opening :: (us ++ f.closing :: rest) ∧ us.flatten = f.content ∧
      rest.flatten = f.body ∧ isFence f.opening = true ∧ isFence f.closing = true := by
  cases lines with
  | nil => cases h
  | cons first lines =>
    rw [ofLines?] at h
    split at h
    · next hfirst =>
      split at h
      · cases h
      · next last rest hd =>
        obtain rfl := Option.some.inj h
        have hlines := List.takeWhile_append_dropWhile (p := (!isFence ·)) (l := lines)
        rw [hd] at hlines
        have hlast := List.head_dropWhile_not (p := (!isFence ·)) (l := lines) (by simp [hd])
        simp only [hd, List.head_cons, Bool.not_eq_false'] at hlast
        exact ⟨_, rest, congrArg (first :: ·) hlines.symm, rfl, rfl, hfirst, hlast⟩
    · cases h

theorem fenced_of_ofText? {f : Frontmatter} (h : ofText? s = some f) :
    Fenced s f.opening f.content f.closing f.body := by
  obtain ⟨us, rest, hs, hcontent, hbody, ho, hz⟩ := ofLines?_eq_some h
  obtain ⟨-, hopen⟩ := Line.split_eq_append [] hs
  obtain ⟨hstart, hclose⟩ := Line.split_eq_append (f.opening :: us) hs
  rw [List.flatten_cons, hcontent] at hstart
  refine ⟨?_, ?_, ?_, ?_⟩
  · rw [← Line.flatten_split s, hs, ← hcontent, ← hbody]
    simp
  · rcases hopen with ⟨hnil, -⟩ | ⟨-, w, -, hw⟩
    · simp at hnil
    · exact brokenFence_of_isFence ho (by simp [hw])
  · by_cases hc : f.content = []
    · exact .inl hc
    · exact hstart.of_append hc
  · rcases hclose with ⟨rfl, hn⟩ | ⟨-, w, -, hw⟩
    · rcases fence_of_isFence hz with hf | hf
      · exact .inl hf
      · exact .inr ⟨hf, hbody.symm⟩
    · exact .inl (brokenFence_of_isFence hz (by simp [hw]))

theorem unfenced_of_ofText? {f : Frontmatter} (h : ofText? s = some f) : Unfenced f.content := by
  intro u l v hc hu hl
  have hs := fenced_of_ofText? h
  have hbroken : BrokenFence l := by
    rcases hl with hl | ⟨rfl, rfl⟩
    · exact hl
    · have hlines := hs.lines
      rw [hc, List.append_nil] at hlines
      exact absurd ((hlines.of_append (by decide)).mem (by decide)) (by decide)
  -- a line of dashes in the content would have been found first, and the content would end there
  have hearlier : Fenced s f.opening u l (v ++ f.closing ++ f.body) :=
    ⟨by rw [hs.text, hc]; simp, hs.opens, hu, .inl hbroken⟩
  obtain ⟨g, hg, hprefix⟩ := hearlier.ofText?
  rw [h] at hg
  obtain rfl := Option.some.inj hg
  have hlen := hprefix.length_le
  obtain ⟨w, rfl, -⟩ := hbroken.line
  simp only [hc, List.length_append, List.length_cons] at hlen
  omega

end Fenced

def outline (root : Tree) : List (Kind × List Char) := root.children.map fun t => (t.kind, t.text)

@[simp] theorem isNode_textNode (k : Kind) (s : List Char) : (textNode k s).isNode = true := rfl

@[simp] theorem kind_textNode (k : Kind) (s : List Char) : (textNode k s).kind = k := rfl

@[simp] theorem isNode_dashLine (l : List Char) : (dashLine l).isNode = true := rfl

@[simp] theorem kind_dashLine (l : List Char) : (dashLine l).kind = .dashLine := rfl

theorem forestText_leaf? (k : Kind) (s : List Char) : Tree.forestText (leaf? k s) = s := by
  cases s <;> simp [leaf?]

@[simp] theorem text_textNode (k : Kind) (s : List Char) : (textNode k s).text = s := by
  rw [textNode, Tree.text_node, forestText_leaf?]

@[simp] theorem text_dashLine (l : List Char) : (dashLine l).text = l := by
  rw [dashLine, Tree.text_node, Tree.forestText_cons, Tree.text_leaf, forestText_leaf?]
  exact List.prefix_iff_eq_append.1 (Line.chomp_isPrefix l)

@[simp] theorem byteLength_textNode (k : Kind) (s : List Char) :
    (textNode k s).byteLength = byteLength s := by
  rw [Tree.byteLength_eq, text_textNode]

@[simp] theorem byteLength_dashLine (l : List Char) : (dashLine l).byteLength = byteLength l := by
  rw [Tree.byteLength_eq, text_dashLine]

section Parts

variable {s : List Char} {f : Frontmatter}

theorem children_of_some (h : ofText? s = some f) : (parse s).children = f.children := by
  rw [parse, h, Tree.children]

theorem children_of_none (h : ofText? s = none) : (parse s).children = [textNode .body s] := by
  rw [parse, h, Tree.children]

theorem located_of_some (h : ofText? s = some f) :
    (parse s).located.children =
      [⟨[0], 0, dashLine f.opening⟩,
        ⟨[1], byteLength f.opening, textNode .frontmatterContent f.content⟩,
        ⟨[2], byteLength (f.opening ++ f.content), dashLine f.closing⟩,
        ⟨[3], byteLength (f.opening ++ f.content ++ f.closing), textNode .body f.body⟩] := by
  simp [Located.children, Tree.located, children_of_some h, children, Located.childrenFrom,
    Nat.add_assoc]

theorem located_of_none (h : ofText? s = none) :
    (parse s).located.children = [⟨[0], 0, textNode .body s⟩] := by
  simp [Located.children, Tree.located, children_of_none h, Located.childrenFrom]

theorem regions_parse (l : FrontmatterLanguage) (s : List Char) :
    (l.parse s).regions = (parse s).located.children.filterMap fun n =>
      if n.tree.isNode then (Region.ofKind? n.kind).map fun r => (r, n.start, n.stop) else none :=
  rfl

theorem regions_of_some (l : FrontmatterLanguage) (h : ofText? s = some f) :
    (l.parse s).regions =
      [(.metadata, 0, byteLength f.opening),
        (.frontmatter, byteLength f.opening, byteLength (f.opening ++ f.content)),
        (.metadata, byteLength (f.opening ++ f.content),
          byteLength (f.opening ++ f.content ++ f.closing)),
        (.body, byteLength (f.opening ++ f.content ++ f.closing), byteLength s)] := by
  have hs := congrArg byteLength (fenced_of_ofText? h).text
  rw [hs, regions_parse, located_of_some h]
  simp [Located.kind, Located.stop, Region.ofKind?, Nat.add_assoc]

theorem regions_of_none (l : FrontmatterLanguage) (h : ofText? s = none) :
    (l.parse s).regions = [(.body, 0, byteLength s)] := by
  rw [regions_parse, located_of_none h]
  simp [Located.kind, Located.stop, Region.ofKind?]

theorem outline_of_some (h : ofText? s = some f) :
    outline (parse s) = [(.dashLine, f.opening), (.frontmatterContent, f.content),
      (.dashLine, f.closing), (.body, f.body)] := by
  simp [outline, children_of_some h, children]

theorem outline_of_none (h : ofText? s = none) : outline (parse s) = [(.body, s)] := by
  simp [outline, children_of_none h]

theorem text_parse (s : List Char) : (parse s).text = s := by
  cases h : ofText? s with
  | none => simp [parse, h]
  | some f =>
    have hs := (fenced_of_ofText? h).text
    simp only [parse, h, children, Tree.text_node, Tree.forestText_cons, Tree.forestText_nil,
      text_dashLine, text_textNode]
    rw [hs]
    simp

theorem ranges_regions (l : FrontmatterLanguage) (s : List Char) :
    (l.parse s).regions.map Prod.snd = (parse s).located.children.map fun n => (n.start, n.stop) := by
  cases h : ofText? s with
  | none => simp [regions_of_none l h, located_of_none h, Located.stop]
  | some f =>
    have hs := congrArg byteLength (fenced_of_ofText? h).text
    rw [regions_of_some l h, located_of_some h, hs]
    simp [Located.stop, Nat.add_assoc]

theorem isNode_children (s : List Char) : ∀ t ∈ (parse s).children, t.isNode = true := by
  cases h : ofText? s with
  | none => simp [children_of_none h]
  | some f => simp [children_of_some h, children]

end Parts

/-- The dash lines are found as the document's grammar says, they and what is between and after them are
the whole document, and the regions are these parts. -/
theorem regions_tile (s : List Char) (l : FrontmatterLanguage) :
    (parse s).isNodeOf [.frontmatterDocument] = true ∧
    (∀ t ∈ (parse s).children, t.isNode = true) ∧
    (parse s).text = s ∧
    (l.parse s).regions.map Prod.snd = (parse s).located.children.map (fun n => (n.start, n.stop)) ∧
    ((¬ ∃ o c z b, Fenced s o c z b) ∧
        outline (parse s) = [(.body, s)] ∧
        (l.parse s).regions = [(.body, 0, byteLength s)] ∨
      ∃ o c z b, Fenced s o c z b ∧ Unfenced c ∧
        (∀ o' c' z' b', Fenced s o' c' z' b' → c <+: c') ∧
        outline (parse s) = [(.dashLine, o), (.frontmatterContent, c), (.dashLine, z), (.body, b)] ∧
        (l.parse s).regions =
          [(.metadata, 0, byteLength o), (.frontmatter, byteLength o, byteLength (o ++ c)),
            (.metadata, byteLength (o ++ c), byteLength (o ++ c ++ z)),
            (.body, byteLength (o ++ c ++ z), byteLength s)]) := by
  refine ⟨rfl, isNode_children s, text_parse s, ranges_regions l s, ?_⟩
  cases h : ofText? s with
  | none =>
    refine .inl ⟨?_, outline_of_none h, regions_of_none l h⟩
    rintro ⟨o, c, z, b, hf⟩
    obtain ⟨f, hf, -⟩ := hf.ofText?
    rw [h] at hf
    cases hf
  | some f =>
    refine .inr ⟨f.opening, f.content, f.closing, f.body, fenced_of_ofText? h,
      unfenced_of_ofText? h, ?_, outline_of_some h, regions_of_some l h⟩
    intro o c z b hf
    obtain ⟨g, hg, hp⟩ := hf.ofText?
    rw [h] at hg
    obtain rfl := Option.some.inj hg
    exact hp

end Frontmatter

end LosslessYaml
