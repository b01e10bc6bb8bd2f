import LosslessYaml.Proofs.Boundary.Block
import LosslessYaml.Proofs.Token.Append
import LosslessYaml.Proofs.Lossless
import LosslessYaml.Proofs.Tree.Schema

namespace LosslessYaml

namespace Grammar

open Rule

section Stream

variable {ms ts : List Placed} (hm : Marker ms)
include hm

theorem reads_document (h : Closed ts) : Reads ms document document ts := by
  have hopen : Reads ms (when (fun ts => atMarker ts && next ts = .directiveEnd) token)
      (when (fun ts => atMarker ts && next ts = .directiveEnd) token) ts := by
    refine reads_when h (by rw [atMarker_append h, next_append h]) fun ht => reads_token h ?_
    simp only [Bool.and_eq_true, decide_eq_true_eq] at ht
    simp [ht.2]
  refine (hopen.andThen fun hc =>
    Reads.andThen (reads_loop (fun us => contentAhead_append hm) (fun us hu ht => ?_) hc)
    fun hb => reads_when hb ?_ fun ht => ?_).within _
  · exact reads_pastTrivia hm hu (ne_nil_of_contentAhead ht) fun hp hk => reads_blockNode hm 0 hp hk
  · refine pastTrivia_agrees hm (f := fun us => atMarker us && next us = .documentEnd)
      (fun us hu => ?_) ?_ hb
    · rw [atMarker_append hu, next_append hu]
    · simp [hm.opens]
  · simp only [Bool.and_eq_true, decide_eq_true_eq] at ht
    exact reads_pastTrivia hm hb (ne_nil_of_next ht.2 (by decide)) fun hp hk => reads_token hp hk

omit hm in
theorem documents_loop (h : ts ≠ []) :
    (loop (fun ts => !ts.isEmpty) (document.andThen trivia) ts).trees =
      (document.andThen trivia ts).trees ++
      (loop (fun ts => !ts.isEmpty) (document.andThen trivia)
        (document.andThen trivia ts).rest).trees := by
  rw [advances_documents.loop_eq, branch, if_pos (by simpa using h), ← advances_documents.loop_eq,
    Rule.andThen]

theorem documents_loop_append (h : ts = [] ∨ Closed ts) :
    (loop (fun ts => !ts.isEmpty) (document.andThen trivia) (ts ++ ms)).trees =
      (loop (fun ts => !ts.isEmpty) (document.andThen trivia) ts).trees ++
        (loop (fun ts => !ts.isEmpty) (document.andThen trivia) ms).trees := by
  induction hn : ts.length using Nat.strongRecOn generalizing ts with
  | ind n ih =>
    rcases h with rfl | h
    · have hnil : loop (fun ts => !ts.isEmpty) (document.andThen trivia) [] = ⟨[], []⟩ :=
        loop_of_not rfl _
      rw [hnil]
      rfl
    · have hd := reads_document hm h
      have hp : document.andThen trivia (ts ++ ms) =
          ⟨(document.andThen trivia ts).trees, (document.andThen trivia ts).rest ++ ms⟩ := by
        simp only [Rule.andThen, hd.eq, trivia_append hm]
      have hrest : (document.andThen trivia ts).rest = [] ∨
          Closed (document.andThen trivia ts).rest := by
        by_cases hr : (document.andThen trivia ts).rest = []
        · exact .inl hr
        · refine .inr ?_
          rw [Rule.andThen, rest_trivia] at hr ⊢
          exact hd.closed.dropWhile _ hr
      have hlt := advances_documents ts (by simpa using h.ne_nil)
      rw [Takes, hn] at hlt
      rw [documents_loop h.ne_nil,
        documents_loop (List.append_ne_nil_of_left_ne_nil h.ne_nil ms), hp]
      rw [ih _ hlt hrest rfl, List.append_assoc]

theorem documents_append (h : ts = [] ∨ Closed ts) :
    (documents (ts ++ ms)).trees = (documents ts).trees ++ (documents ms).trees := by
  have hr : (trivia ts).rest = [] ∨ Closed (trivia ts).rest := by
    by_cases hr : (trivia ts).rest = []
    · exact .inl hr
    · refine .inr ?_
      rw [rest_trivia] at hr ⊢
      rcases h with rfl | h
      · exact absurd rfl hr
      · exact h.dropWhile _ hr
  have hmt : trivia ms = ⟨[], ms⟩ := trivia_append hm []
  simp only [documents, Rule.andThen, trivia_append hm, documents_loop_append hm hr, hmt,
    List.nil_append,
    List.append_assoc]

end Stream

end Grammar

namespace Tree

def documents (t : Tree) : List Tree := t.children.filter (·.isNodeOf [.document])

end Tree

def directiveLine : List Char := ['-', '-', '-', '\n']

theorem scan_directiveLine (t : List Char) :
    Token.scan (directiveLine ++ t) =
      ⟨.directiveEnd, ['-', '-', '-']⟩ :: ⟨.newline, ['\n']⟩ :: Token.scan t := by
  have hd : Token.scanFrom false (directiveLine ++ t) =
      ⟨.directiveEnd, ['-', '-', '-']⟩ :: Token.scanFrom true ('\n' :: t) := by
    rw [directiveLine, List.cons_append, Token.scanFrom]
    rfl
  have hn : Token.scanFrom true ('\n' :: t) = ⟨.newline, ['\n']⟩ :: Token.scanFrom false t := by
    rw [Token.scanFrom]
    rfl
  rw [Token.scan, hd, hn, Token.scan]

theorem marker_directiveLine (t : List Char) :
    Grammar.Marker (Placed.place (Token.scan (directiveLine ++ t))) := by
  rw [scan_directiveLine]
  constructor <;> rfl

theorem closed_place {ts : List Token} (h : Token.EndsLine ts) :
    Grammar.Closed (Placed.place ts) := by
  obtain ⟨us, t, hts, hk⟩ := h
  obtain ⟨vs, ws, hp, -, hw⟩ := List.map_eq_append_iff.1 ((Placed.map_token_place ts).trans hts)
  obtain ⟨x, rfl, rfl⟩ := List.map_eq_singleton_iff.1 hw
  exact ⟨vs, x, hp, hk⟩

/-- A line that opens a document separates the documents before it from those after it. -/
theorem documents_parse_append (s t : List Char)
    (h : Token.scan s = [] ∨ ∃ x, (Token.scan s).getLast? = some x ∧ x.kind = .newline) :
    (parse (s ++ directiveLine ++ t)).documents =
      (parse s).documents ++ (parse (directiveLine ++ t)).documents := by
  have h' : Token.scan s = [] ∨ Token.EndsLine (Token.scan s) := by
    rcases h with h | ⟨x, hx, hk⟩
    · exact .inl h
    · obtain ⟨us, hus⟩ := List.getLast?_eq_some_iff.1 hx
      exact .inr ⟨us, x, hus, hk⟩
  have hc : Placed.place (Token.scan s) = [] ∨ Grammar.Closed (Placed.place (Token.scan s)) := by
    rcases h' with h' | h'
    · rw [h']
      exact .inl rfl
    · exact .inr (closed_place h')
  have hd := Grammar.documents_append (marker_directiveLine t) hc
  rw [← Placed.place_scan_append h', ← List.append_assoc] at hd
  simp only [Tree.documents, parse, Tree.ofPlaced, Tree.children, hd, List.filter_append]

/-- A flow collection that is left open ends in front of the line that opens the next document. -/
theorem documents_parse_append_open :
    (parse ['[', 'a', '\n']).documents.length = 1 ∧
      (parse (['[', 'a', '\n'] ++ directiveLine ++ ['b'])).documents =
        (parse ['[', 'a', '\n']).documents ++ (parse (directiveLine ++ ['b'])).documents := by
  refine ⟨by decide +kernel, documents_parse_append ['[', 'a', '\n'] ['b']
    (.inr ⟨⟨.newline, ['\n']⟩, ?_, rfl⟩)⟩
  decide +kernel

end LosslessYaml
