import LosslessYaml.Proofs.Indent.BaseLine

namespace LosslessYaml

open Text

def Yields {α : Type} (P : α → Prop) (r : Except Fault α) : Prop := ∃ a, r = .ok a ∧ P a

section Yields

variable {α β : Type} {P : α → Prop} {Q : β → Prop}

theorem yields_pure {a : α} (h : P a) : Yields P (pure a) := ⟨a, rfl, h⟩

theorem Yields.bind {r : Except Fault α} {f : α → Except Fault β} (hr : Yields P r)
    (hf : ∀ a, P a → Yields Q (f a)) : Yields Q (r >>= f) := by
  obtain ⟨a, rfl, ha⟩ := hr
  exact hf a ha

end Yields

namespace Column

variable {tab : Nat} (htab : 0 < tab)
include htab

theorem next_yields {col : Nat} (c : Char) (h : col + tab < columnLimit) :
    Yields (· ≤ col + tab) (next tab col c) := by
  rw [next]
  by_cases hc : c = '\t'
  · rw [if_pos hc, if_pos h]
    exact yields_pure (Nat.sub_le _ _)
  · rw [if_neg hc, if_pos (by omega)]
    exact yields_pure (by omega)

theorem foldlM_next_yields {col : Nat} {s : List Char} (h : col + s.length * tab < columnLimit) :
    Yields (· ≤ col + s.length * tab) (s.foldlM (next tab) col) := by
  induction s generalizing col with
  | nil => exact yields_pure (Nat.le_add_right _ _)
  | cons c s ih =>
    rw [List.length_cons, Nat.succ_mul] at h ⊢
    rw [List.foldlM_cons]
    refine (next_yields htab c (by omega)).bind fun n hn => ?_
    have hlimit : n + s.length * tab < columnLimit := by omega
    obtain ⟨k, hk, hle⟩ := ih hlimit
    exact ⟨k, hk, by omega⟩

theorem count_yields {m : Nat} {s : List Char} (hs : s.length ≤ m) (h : m * tab < columnLimit) :
    Yields (· ≤ m * tab) (count tab s) := by
  have hle : s.length * tab ≤ m * tab := Nat.mul_le_mul_right tab hs
  have hlimit : 0 + s.length * tab < columnLimit := by omega
  obtain ⟨k, hk, hbound⟩ := foldlM_next_yields htab hlimit
  exact ⟨k, hk, by omega⟩

end Column

theorem Line.length_before_le (l : Line) (n : Nat) : (l.before n).length ≤ l.text.length := by
  rw [before, front]
  cases h : cut? n l.text with
  | none => exact Nat.le_refl _
  | some p =>
    rw [(eq_append_of_cut? h).1, List.length_append]
    exact Nat.le_add_right _ _

namespace Cursor

/-- The cursor stands between two characters of the text that was parsed, no line of which has more than `m`
characters, and a column of such a line fits together with one level of indentation. -/
structure Fits (c : Cursor) (m : Nat) : Prop where
  root : c.root.isNode = true
  text : c.root.text = c.doc.text
  lines : ∀ l ∈ c.doc.lines, l.text.length ≤ m
  bound : m * c.doc.tabSize + c.unit < columnLimit
  pos : isBoundary (min c.pos c.doc.size) c.doc.text = true

namespace Fits

variable {c : Cursor} {m : Nat} (h : c.Fits m)
include h

theorem lineIndent {n : Nat} {l : Line} (hl : c.doc.lineAt n = .ok l) :
    Yields (· ≤ m * c.doc.tabSize) (c.doc.lineIndent n) := by
  have hmem : l ∈ c.doc.lines := Document.eq_of_lineAt hl ▸ c.doc.lineHolding_mem n
  have hlen : l.indentation.length ≤ m :=
    Nat.le_trans (List.takeWhile_sublist Text.isBlank).length_le (h.lines l hmem)
  rw [Document.lineIndent, hl]
  exact Column.count_yields c.doc.tabSize_pos hlen (by have := h.bound; omega)

theorem column {n : Nat} {l : Line} (hl : c.doc.lineAt n = .ok l) :
    Yields (· ≤ m * c.doc.tabSize) (c.doc.column n) := by
  have hmem : l ∈ c.doc.lines := Document.eq_of_lineAt hl ▸ c.doc.lineHolding_mem n
  have hlen := Nat.le_trans (l.length_before_le (min n l.stop - l.start)) (h.lines l hmem)
  rw [Document.column, hl]
  exact Column.count_yields c.doc.tabSize_pos hlen (by have := h.bound; omega)

theorem add {k : Nat} (hk : k ≤ m * c.doc.tabSize) :
    Yields (· ≤ m * c.doc.tabSize + c.unit) (Column.add k c.unit) := by
  have hbound := h.bound
  exact ⟨_, if_pos (by omega), by omega⟩

theorem textAfter : Yields (fun _ => True) c.textAfter := by
  rw [Cursor.textAfter, Document.textAfter, Document.lineAt, if_pos h.pos]
  exact yields_pure trivial

variable {x : Located} (hx : x ∈ c.root.nodes)
include hx

theorem baseIndent : Yields (· ≤ m * c.doc.tabSize) (c.baseIndent x) :=
  h.lineIndent (isBase_baseLine h.root h.text hx).lineAt_base

theorem delimitedIndent (closing : Char) :
    Yields (· ≤ m * c.doc.tabSize + c.unit) (c.delimitedIndent closing x) := by
  refine (h.baseIndent hx).bind fun base hbase => h.textAfter.bind fun s _ => ?_
  split
  · exact yields_pure (Nat.le_trans hbase (Nat.le_add_right _ _))
  · exact h.add hbase

theorem opinion :
    Yields (fun o => ∀ k, o = .column k → k ≤ m * c.doc.tabSize + c.unit) (c.opinion x) := by
  have hline := lineAt_start h.text hx
  have hcolumn {k : Nat} (hk : k ≤ m * c.doc.tabSize + c.unit) :
      Yields (fun o => ∀ k, o = .column k → k ≤ m * c.doc.tabSize + c.unit)
        (pure (Opinion.column k)) :=
    yields_pure fun n hn => Opinion.column.inj hn ▸ hk
  have hwide {k : Nat} (hk : k ≤ m * c.doc.tabSize) : k ≤ m * c.doc.tabSize + c.unit :=
    Nat.le_trans hk (Nat.le_add_right _ _)
  rw [Cursor.opinion]
  split
  · split
    · exact yields_pure nofun
    · exact (h.baseIndent hx).bind fun k hk => hcolumn (hwide hk)
  · exact (h.baseIndent hx).bind fun k hk => (h.add hk).bind fun n hn => hcolumn hn
  · exact (h.column hline).bind fun k hk => hcolumn (hwide hk)
  · exact (h.column hline).bind fun k hk => hcolumn (hwide hk)
  · exact yields_pure nofun
  · refine (h.column hline).bind fun k hk => (h.lineIndent hline).bind fun n _ => ?_
    split
    · exact hcolumn (hwide hk)
    · split <;> exact yields_pure nofun
  · exact yields_pure nofun

end Fits

def Suggests (b : Nat) : Except Fault (Option Nat) → Prop := Yields fun o => ∀ k ∈ o, k ≤ b

variable {c : Cursor} {m : Nat}

theorem Fits.firstOpinion (h : c.Fits m) {ns : List Located} (hns : ∀ n ∈ ns, n ∈ c.root.nodes) :
    Suggests (m * c.doc.tabSize + c.unit) (c.firstOpinion ns) := by
  induction ns with
  | nil => exact yields_pure nofun
  | cons n ns ih =>
    obtain ⟨hn, hns⟩ := List.forall_mem_cons.1 hns
    rw [Cursor.firstOpinion]
    split
    · exact yields_pure nofun
    · refine (h.opinion hn).bind fun o ho => ?_
      cases o with
      | column k => exact yields_pure fun n hk => Option.mem_some.1 hk ▸ ho k rfl
      | silence => exact yields_pure nofun
      | pass => exact ih hns

theorem Fits.streamIndent (h : c.Fits m) : Suggests (m * c.doc.tabSize + c.unit) c.streamIndent :=
  h.firstOpinion fun _ hn => (Tree.mem_chain_focus h.root hn).1

theorem Fits.indentAmong (h : c.Fits m) {ns : List Located} (hns : ∀ n ∈ ns, n ∈ c.root.nodes) :
    Suggests (m * c.doc.tabSize + c.unit) (c.indentAmong ns) := by
  have hbrackets {n : Located} (hn : n ∈ c.root.nodes) (closing : Char) :
      Suggests (m * c.doc.tabSize + c.unit) (some <$> c.delimitedIndent closing n) := by
    obtain ⟨k, hk, hle⟩ := h.delimitedIndent hn closing
    rw [hk]
    exact yields_pure fun n hn => Option.mem_some.1 hn ▸ hle
  induction ns with
  | nil => exact yields_pure nofun
  | cons n ns ih =>
    obtain ⟨hn, hns⟩ := List.forall_mem_cons.1 hns
    rw [Cursor.indentAmong]
    split
    · split
      · exact hbrackets hn _
      · exact ih hns
    · split
      · exact hbrackets hn _
      · exact ih hns
    · exact h.streamIndent
    · exact ih hns

theorem Fits.indent (h : c.Fits m) : Suggests (m * c.doc.tabSize + c.unit) c.indent :=
  h.indentAmong fun _ hn => (Tree.mem_chain_focus h.root hn).1

theorem isBoundary_min {s : List Char} {n : Nat} (h : isBoundary n s = true ∨ byteLength s ≤ n) :
    isBoundary (min n (byteLength s)) s = true := by
  have hend : isBoundary (byteLength s) s = true := by
    have hcut := cut?_append s []
    rw [List.append_nil] at hcut
    rw [← isSome_cut?, hcut]
    rfl
  rcases Nat.le_total n (byteLength s) with hle | hle
  · rcases h with h | h
    · rwa [Nat.min_eq_left hle]
    · rwa [Nat.min_eq_right h]
  · rwa [Nat.min_eq_right hle]

theorem tabSize_withTabSize (d : Document) {tab : Nat} (h : 1 ≤ tab) : (d.withTabSize tab).tabSize = tab :=
  Nat.max_eq_left h

theorem fits_ofOffset (s : List Char) {m tab unit pos : Nat}
    (hm : ∀ l ∈ (Document.ofText s).lines, l.text.length ≤ m) (htab : 1 ≤ tab)
    (hu : m * tab + unit < columnLimit) (hpos : isBoundary pos s = true ∨ byteLength s ≤ pos) :
    (ofOffset (parse s) ((Document.ofText s).withTabSize tab) pos unit).Fits m where
  root := rfl
  text := text_parse s
  lines := hm
  bound := by
    rw [ofOffset, tabSize_withTabSize _ htab]
    exact hu
  pos := by
    have hsize : ((Document.ofText s).withTabSize tab).size = byteLength s := rfl
    rw [ofOffset, hsize, Nat.min_assoc, Nat.min_self]
    exact isBoundary_min hpos

/-- Where the longest line and one level of indentation fit, both ways to ask for the column of a new line give an
answer, and no column they suggest is further to the right than that. -/
theorem indent_suggests (s : List Char) {m tab unit pos : Nat}
    (hm : ∀ l ∈ (Document.ofText s).lines, l.text.length ≤ m) (htab : 1 ≤ tab)
    (hu : m * tab + unit < columnLimit) (hpos : isBoundary pos s = true ∨ byteLength s ≤ pos) :
    Suggests (m * tab + unit) (ofOffset (parse s) ((Document.ofText s).withTabSize tab) pos unit).indent ∧
      Suggests (m * tab + unit)
        (ofOffset (parse s) ((Document.ofText s).withTabSize tab) pos unit).streamIndent := by
  have h := fits_ofOffset s hm htab hu hpos
  have hbound : m * tab + unit = m * ((Document.ofText s).withTabSize tab).tabSize + unit := by
    rw [tabSize_withTabSize _ htab]
  rw [hbound]
  exact ⟨h.indent, h.streamIndent⟩

theorem indent_suggests_widest :
    7 * 4 + 4294967267 + 1 = columnLimit ∧
      Suggests (7 * 4 + 4294967267) (ofOffset (parse "\té: [a,".toList)
        ((Document.ofText "\té: [a,".toList).withTabSize 4) 99 4294967267).indent ∧
      Suggests (7 * 4 + 4294967267) (ofOffset (parse "\té: [a,".toList)
        ((Document.ofText "\té: [a,".toList).withTabSize 4) 99 4294967267).streamIndent :=
  ⟨rfl, indent_suggests "\té: [a,".toList (by decide) (by decide) (by decide) (.inr (by decide))⟩

end Cursor

end LosslessYaml
