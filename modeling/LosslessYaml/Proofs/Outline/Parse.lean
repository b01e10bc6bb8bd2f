import LosslessYaml.Proofs.Outline.Value
import LosslessYaml.Proofs.Writing.Parse

namespace LosslessYaml

namespace Outline

open Token Placed Grammar Rule
open Writing (Word Shape Head Break Breaks EndsLine Ends Opens Spaced Style spaces space indentTrees breakTrees read read_nil
  read_break read_spaces read_word read_indicator gives_break gives_breakTrees)

variable {r : List Char} {m d : Nat} {indent : Option Nat}

instance : style.Gapped where
  endsLine_gap (e : Break) s := Breaks.endsLine (.inr ⟨e, s, rfl⟩)
  endsLine_ending
    | none => Breaks.endsLine (.inl rfl)
    | some e => Breaks.endsLine (.inr ⟨e, [], (List.append_nil _).symm⟩)
  gives_gap (e : Break) d _ hs _ := gives_breakTrees e d hs
  gives_ending
    | none, n => by
      change Gives trivia (read n false true []) [] []
      rw [read_nil]
      rfl
    | some e, n => by
      have hnil : Gives trivia (read 0 true false []) [] [] := by
        rw [read_nil]
        rfl
      have h : Gives trivia (read n false true (e.text ++ [])) _ _ := gives_break e hnil
      rwa [List.append_nil] at h

section Content

theorem contentLength?_left {t : Placed} {ts us : List Placed} (hp : pastBlank (lineOf ts) = t :: us)
    (hc : t.column < m) : contentLength? m indent ts = none := by
  rw [contentLength?]
  split
  · next h =>
    rw [hp] at h
    cases h
  · next h =>
    rw [hp] at h
    obtain ⟨rfl, -⟩ := List.cons.inj h
    simp [hc]

theorem contentLength?_ends (h : Ends style (fun ts => column ts < m) r) :
    r = [] ∨ ∃ (e : Break) (t : List Char), r = e.text ++ t ∧
      ∀ indent, contentLength? m indent (read 0 true false t) = none := by
  cases h with
  | ending e =>
    cases e with
    | none => exact .inl rfl
    | some e =>
      refine .inr ⟨e, [], (List.append_nil _).symm, fun indent => ?_⟩
      rw [read_nil, contentLength?_nil]
  | @line e d s hs hp =>
    refine .inr ⟨e, _, rfl, fun indent => ?_⟩
    obtain ⟨t, ts, hread, hk⟩ := Writing.read_opens hs d true false
    rw [hread] at hp
    have hw : t.kind ≠ .whitespace := fun h => by simp [h, Kind.isTrivia] at hk
    have hn : t.kind ≠ .newline := fun h => by simp [h, Kind.isTrivia] at hk
    cases d with
    | zero =>
      rw [spaces, List.replicate_zero, List.nil_append, hread]
      have hline : pastBlank (lineOf (t :: ts)) = t :: lineOf ts := by simp [lineOf, pastBlank, hw, hn]
      exact contentLength?_left hline hp
    | succ d =>
      have hblank (b : Placed) (hb : b.kind = .whitespace) :
          pastBlank (lineOf (b :: t :: ts)) = t :: lineOf ts := by
        simp [lineOf, pastBlank, hb, hn]
      rw [read_spaces d hs.isBlank, Nat.zero_add, hread]
      exact contentLength?_left (hblank _ rfl) hp

section Word

variable {b t : Placed} (hb : b.kind = .whitespace) (ht : t.kind = .text) (hc : t.column = d) (hd : m ≤ d)
  (hi : indent = none ∨ indent = some d)
include hb ht hc hd hi

theorem contentLength?_lastWord : contentLength? m indent [b, t] = some 2 := by
  have hg : indent.getD d = d := by rcases hi with rfl | rfl <;> rfl
  have hm : atMarker [t] = false := by simp [atMarker, atIndicator, ht]
  have hl : lineOf [b, t] = [b, t] := by simp [lineOf, hb, ht]
  have hp : pastBlank [b, t] = [t] := by simp [pastBlank, hb]
  rw [contentLength?_last _ _ (by simp [afterLine, hb, ht]), hl, hp]
  simp [hc, hg, hm, Nat.not_lt.2 hd]

theorem contentLength?_word {u : Placed} {us : List Placed} (hu : u.kind = .newline) :
    contentLength? m indent (b :: t :: u :: us) = some (((contentLength? m (some d) us).map (3 + ·)).getD 2) := by
  have hg : indent.getD d = d := by rcases hi with rfl | rfl <;> rfl
  have hm : atMarker (t :: u :: us) = false := by simp [atMarker, atIndicator, ht]
  have hl : lineOf (b :: t :: u :: us) = [b, t] := by simp [lineOf, hb, ht, hu]
  have hp (ts : List Placed) : pastBlank (b :: ts) = ts := by simp [pastBlank, hb]
  have ha : afterLine (b :: t :: u :: us) = u :: us := by simp [afterLine, hb, ht, hu]
  rw [contentLength?_line _ _ ha, hl, hp, hp]
  simp only [hc, hg, hm, Nat.not_lt.2 hd, Nat.lt_irrefl, decide_false, Bool.or_self, Bool.false_eq_true, if_false]
  cases contentLength? m (some d) us <;> rfl

end Word

theorem read_content (hm : m ≤ d) (h0 : 0 < d) (hr : Ends style (fun ts => column ts < m) r) (w : Word)
    (ls : List (Break × Word)) (hi : indent = none ∨ indent = some d) :
    ∃ ts n, read 0 true false (spaces d ++ (w.chars ++ (linesText d ls ++ r))) = ts ++ read n false true r ∧
      (ts.map fun t => Tree.leaf t.token) = contentTrees d w ls ∧
      contentLength? m indent (ts ++ read n false true r) = some ts.length := by
  obtain ⟨j, rfl⟩ : ∃ j, d = j + 1 := ⟨d - 1, by omega⟩
  have hfirst (v : List Char) (hv : Spaced v) (w : Word) :
      read 0 true false (spaces (j + 1) ++ (w.chars ++ v)) =
        ⟨⟨.whitespace, spaces (j + 1)⟩, 0, true⟩ :: ⟨⟨.text, w.chars⟩, j + 1, true⟩ ::
          read (j + 1 + w.chars.length) false true v := by
    rw [read_spaces j (w.opens _).isBlank, read_word w hv.isPlain, Nat.zero_add]
  induction ls generalizing w indent with
  | nil =>
    refine ⟨[_, _], _, hfirst r hr.endsLine.spaced w, rfl, ?_⟩
    rcases contentLength?_ends hr with rfl | ⟨e, t, rfl, hnone⟩
    · rw [read_nil]
      exact contentLength?_lastWord rfl rfl rfl hm hi
    · rw [read_break, List.cons_append, List.singleton_append, contentLength?_word rfl rfl rfl hm hi rfl, hnone]
      rfl
  | cons l ls ih =>
    obtain ⟨ts, n, hread, htrees, hlen⟩ := ih l.2 (.inr rfl)
    have htext : linesText (j + 1) (l :: ls) ++ r =
        l.1.text ++ (spaces (j + 1) ++ (l.2.chars ++ (linesText (j + 1) ls ++ r))) := by
      simp [linesText]
    refine ⟨⟨⟨.whitespace, spaces (j + 1)⟩, 0, true⟩ :: ⟨⟨.text, w.chars⟩, j + 1, true⟩ ::
      ⟨⟨.newline, l.1.text⟩, j + 1 + w.chars.length, false⟩ :: ts, n, ?_, ?_, ?_⟩
    · rw [htext, hfirst _ (.inl (.inr ⟨_, _, rfl⟩)), read_break, hread]
      rfl
    · simp only [List.map_cons, htrees]
      rfl
    · rw [List.cons_append, List.cons_append, List.cons_append, contentLength?_word rfl rfl rfl hm hi rfl, hlen]
      simp only [Option.map_some, Option.getD_some, List.length_cons]
      congr 1
      omega

end Content

theorem read_pipe {n : Nat} {fresh glued : Bool} {s : List Char} :
    read n fresh glued ('|' :: s) = ⟨⟨.pipe, ['|']⟩, n, fresh⟩ :: read (n + 1) false true s :=
  read_indicator rfl

theorem reads_literal {c : Nat} (h : c < d) (e : Break) (w : Word) (ls : List (Break × Word))
    (hr : Ends style (fun ts => column ts < c + 1) r) (n : Nat) :
    ∃ m, Grammar.Inline c (read n false false ((Inline.literal h e w ls).text ++ r)) (literalTree d e w ls)
      (read m false true r) := by
  obtain ⟨ts, m, hread, htrees, hlen⟩ := read_content h (by omega) hr w ls (.inl rfl)
  have hdrop : (ts ++ read m false true r).drop ts.length = read m false true r := List.drop_left
  have htake : (ts ++ read m false true r).take ts.length = ts := List.take_left
  have htext : linesText d ((e, w) :: ls) ++ r =
      e.text ++ (spaces d ++ (w.chars ++ (linesText d ls ++ r))) := by
    simp [linesText]
  refine ⟨m, ?_⟩
  rw [Inline.text, List.cons_append, read_pipe, htext, read_break, hread]
  have hi := inline_literal (p := ⟨⟨.pipe, ['|']⟩, n, false⟩) (b := ⟨⟨.newline, e.text⟩, n + 1, false⟩)
    rfl rfl hlen (by rw [hdrop]; exact hr.endsLine.atLineEnd _ _ _)
  rw [hdrop, htake, htrees] at hi
  exact hi

instance : style.Lawful where
  bare_inline
    | .word w, r => (w.opens r).isBlank
    | .literal .., r => by simp [Inline.text, Text.isBlank]
  reads_inline
    | .word w, hr, n => Writing.reads_word w hr n
    | .literal h e w ls, hr, n => reads_literal h e w ls hr n

theorem parse_text (o : Outline) : parse o.text = o.tree := by
  have hends (p : List Placed → Prop) : Ends style p (endingText o.ending) := Ends.ending (S := style) o.ending
  obtain ⟨n, h⟩ := Writing.gives_collection o.root.reads (hends _) 0 true false
  have hh := (o.root.heads (endingText o.ending) 0 true false).1
  have hd := gives_documents (gives_trivia_not hh.not_isTrivia) hh.not_isTrivia hh.contentAhead h
    (Style.Gapped.gives_ending (S := style) o.ending n)
  rw [parse, Tree.ofPlaced]
  exact congrArg (fun p => Tree.node .stream p.trees) hd

end Outline

end LosslessYaml
