import LosslessYaml.Proofs.Fold.Repeats

namespace LosslessYaml

namespace Fold

open Text Line
open Token (textOf)

def lineKinds : List Kind := [.item, .pair, .blockLiteral]

def Hides (d : Document) (n : Located) (f : Fold) : Prop := ofNode? d n = some f ∧ f.isEmpty = false

def Contains (f g : Fold) : Prop := f.start ≤ g.start ∧ g.stop ≤ f.stop

section Parsed

variable {s : List Char} {m n : Located} {f g : Fold}

theorem ofNode?_of_lineKinds {d : Document} (hk : n.kind ∈ lineKinds) : ofNode? d n = below? d n := by
  simp only [lineKinds, List.mem_cons, List.not_mem_nil, or_false] at hk
  rcases hk with hk | hk | hk <;> rw [ofNode?, hk]

theorem stop_line_of_break {x b : List Char} (hn : n ∈ (parse s).nodes) (h : FirstBreak n.tree.text x b) :
    ((Document.ofText s).lineHolding n.start).stop = n.start + byteLength x := by
  obtain ⟨ts, us, hs, hstart⟩ := scan_of_mem_nodes hn
  have htext := text_of_scan hs
  have hparted : Token.Parted (textOf ts) (n.tree.text ++ textOf us) := by
    rw [Tree.text, ← Token.textOf_append]
    exact Token.parted_scanFrom hs
  rw [Token.textOf_append] at htext
  rw [hstart]
  refine Document.stop_lineHolding_of_break htext (fun hr hhead => hparted hr ?_) h
  rw [Tree.text, List.head?_append, hhead]
  rfl

theorem stop_le_line (hn : n ∈ (parse s).nodes) (h : '\n' ∉ n.tree.text) :
    n.stop ≤ ((Document.ofText s).lineHolding n.start).stop := by
  obtain ⟨ts, us, hs, hstart⟩ := scan_of_mem_nodes hn
  rw [← List.append_assoc] at hs
  have htext := text_of_scan hs
  have hparted := Token.parted_scanFrom hs
  rw [Token.textOf_append] at htext hparted
  have hle := Document.le_stop_lineHolding htext hparted h
  rwa [byteLength_append, ← hstart, ← Tree.text, ← Tree.byteLength_eq] at hle

theorem hides_of_break {x b : List Char} (hn : n ∈ (parse s).nodes) (hk : n.kind ∈ lineKinds)
    (h : FirstBreak n.tree.text x b) :
    n.start + byteLength x + byteLength b ≤ n.stop ∧
      Hides (Document.ofText s) n ⟨n.start + byteLength x, n.stop⟩ := by
  have hline := stop_line_of_break hn h
  have hlen := byteLength_le_of_isPrefix h.text
  rw [byteLength_append, ← Tree.byteLength_eq] at hlen
  have hb : 0 < byteLength b := by
    rcases h.feed with rfl | ⟨rfl, -⟩ <;> decide
  have hstop : n.start + byteLength x + byteLength b ≤ n.stop := by
    rw [Located.stop]
    omega
  refine ⟨hstop, ?_, ?_⟩
  · rw [ofNode?_of_lineKinds hk, below?, hline]
    exact if_pos (by dsimp only; omega)
  · simp only [isEmpty, decide_eq_false_iff_not]
    omega

theorem mem_of_hides (hn : n ∈ (parse s).nodes) (hk : n.kind ∈ lineKinds) (h : Hides (Document.ofText s) n f) :
    '\n' ∈ n.tree.text := by
  apply Decidable.byContradiction
  intro hlf
  obtain ⟨hf, hne⟩ := h
  have hle := stop_le_line hn hlf
  rw [ofNode?_of_lineKinds hk] at hf
  obtain ⟨hge, hf⟩ := Option.ite_none_right_eq_some.1 hf
  obtain rfl := Option.some.inj hf
  simp only [isEmpty, decide_eq_false_iff_not] at hne hge
  omega

theorem contains_or_apart (hm : m ∈ (parse s).nodes) (hn : n ∈ (parse s).nodes) (hmk : m.kind ∈ lineKinds)
    (hnk : n.kind ∈ lineKinds) (hmn : m.Precedes n) (hf : Hides (Document.ofText s) m f)
    (hg : Hides (Document.ofText s) n g) : f.Contains g ∨ f.stop ≤ g.start := by
  have hf := isBelow_of_below? hm (ofNode?_of_lineKinds hmk ▸ hf.1)
  have hg := isBelow_of_below? hn (ofNode?_of_lineKinds hnk ▸ hg.1)
  rcases hmn with ha | hle
  · left
    have hstart : m.start ≤ n.start := Nat.le_trans (Nat.le_add_right _ _) ha.start
    refine ⟨?_, ?_⟩
    · rw [hf.start, hg.start]
      exact Document.stop_lineHolding_mono hstart
    · rw [hf.stop, hg.stop]
      exact Nat.le_trans (Nat.le_add_right _ _) ha.stop
  · right
    rw [hf.stop]
    exact Nat.le_trans hle hg.line

end Parsed

/-- An item, a pair or a block scalar has a fold that hides something exactly if there is a line feed in its text. The
fold goes from the first line break of this text, which is hidden, to the end of the node. Of two such folds one
contains the other, or they have no more than an end in common. -/
theorem hides_from_first_break (s : List Char) :
    (∀ n ∈ (parse s).nodes, n.kind ∈ lineKinds →
      ((∃ f, Hides (Document.ofText s) n f) ↔ '\n' ∈ n.tree.text) ∧
        ∀ f, Hides (Document.ofText s) n f → ∃ x b, FirstBreak n.tree.text x b ∧
          f.start = n.start + byteLength x ∧ f.start + byteLength b ≤ f.stop ∧ f.stop = n.stop) ∧
      ∀ m ∈ (parse s).nodes, ∀ n ∈ (parse s).nodes, m.kind ∈ lineKinds → n.kind ∈ lineKinds →
        ∀ f g, Hides (Document.ofText s) m f → Hides (Document.ofText s) n g →
          f.Contains g ∨ g.Contains f ∨ f.stop ≤ g.start ∨ g.stop ≤ f.start := by
  refine ⟨fun n hn hk => ⟨⟨?_, ?_⟩, ?_⟩, ?_⟩
  · rintro ⟨f, hf⟩
    exact mem_of_hides hn hk hf
  · intro hlf
    obtain ⟨x, b, h⟩ := exists_firstBreak hlf
    exact ⟨_, (hides_of_break hn hk h).2⟩
  · intro f hf
    obtain ⟨x, b, h⟩ := exists_firstBreak (mem_of_hides hn hk hf)
    obtain ⟨hle, hg⟩ := hides_of_break hn hk h
    obtain rfl := Option.some.inj (hf.1.symm.trans hg.1)
    exact ⟨x, b, h, rfl, hle, rfl⟩
  · intro m hm n hn hmk hnk f g hf hg
    rcases Tree.nodes_apart hm hn with rfl | hmn | hnm
    · obtain rfl := Option.some.inj (hf.1.symm.trans hg.1)
      exact .inl ⟨Nat.le_refl _, Nat.le_refl _⟩
    · rcases contains_or_apart hm hn hmk hnk hmn hf hg with hc | hle
      · exact .inl hc
      · exact .inr (.inr (.inl hle))
    · rcases contains_or_apart hn hm hnk hmk hnm hg hf with hc | hle
      · exact .inr (.inl hc)
      · exact .inr (.inr (.inr hle))

theorem hides_from_crlf :
    ∃ n ∈ (parse "k:\r\n- a".toList).nodes, n.kind = .pair ∧
      ∃ f, Hides (Document.ofText "k:\r\n- a".toList) n f := by
  obtain ⟨n, hn, hk, hlf⟩ :
      ∃ n ∈ (parse "k:\r\n- a".toList).nodes, n.kind = .pair ∧ '\n' ∈ n.tree.text := by
    decide +kernel
  exact ⟨n, hn, hk, ((hides_from_first_break _).1 n hn (by simp [hk, lineKinds])).1.2 hlf⟩

end Fold

end LosslessYaml
