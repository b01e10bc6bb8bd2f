import LosslessYaml.Proofs.Token.Edge
import LosslessYaml.Proofs.Token.LineFeed

namespace LosslessYaml

open Text

def Text.Clear (u : List Char) : Prop := ∀ c ∈ u.getLast?, isGap c = true

theorem Text.clear_append_cons {u v : List Char} {c : Char} :
    Clear (u ++ c :: v) ↔ ∀ x ∈ (c :: v).getLast?, isGap x = true := by
  rw [Clear, List.getLast?_append_of_ne_nil _ (List.cons_ne_nil _ _)]

namespace Token

/-- What a hash means at the front of a token that stands between `u` and `v`. -/
structure Hash (u : List Char) (t : Token) (v : List Char) : Prop where
  kind : Clear u → t.kind = .comment
  oneLine : Clear u → ∀ c ∈ t.text, c ≠ '\r' ∧ c ≠ '\n'
  stops : Clear u → ∀ c ∈ v.head?, c = '\r' ∨ c = '\n'
  glued : ¬ Clear u → t = ⟨.text, ['#']⟩

/-- A token between the text in front of it and the text behind. -/
structure Between (u : List Char) (t : Token) (v : List Char) : Prop where
  front : Parted u (t.text ++ v)
  back : Parted (u ++ t.text) v
  feed : '\n' ∈ t.text → t.kind = .newline ∨ t.kind = .quoted ∨ t.kind = .text ∧ t.OpensQuote
  hash : t.text.head? = some '#' → Hash u t v

def Tiles : Nat → List (Token × Nat × Nat) → Nat → Prop
  | n, [], m => n = m
  | n, (_, start, stop) :: xs, m => start = n ∧ start < stop ∧ Tiles stop xs m

structure Partition (s : List Char) (xs : List (Token × Nat × Nat)) : Prop where
  tiles : Tiles 0 xs (byteLength s)
  slices : ∀ x ∈ xs, ∃ u v, s = u ++ x.1.text ++ v ∧ x.2 = (byteLength u, byteLength (u ++ x.1.text)) ∧ Between u x.1 v
  blanks : xs.IsChain fun x y => Apart x.1 y.1

theorem lexeme_hash (glued : Bool) (cs : List Char) : lexeme glued '#' cs = hash glued cs := rfl

theorem head?_rest_run {k : Kind} {p : Char → Bool} {cs : List Char} {c : Char} (h : c ∈ (run k p cs).rest.head?) :
    p c = false := by
  have hd : (cs.dropWhile p).head? = some c := h
  simpa [hd] using List.head?_dropWhile_not p cs

theorem eq_hash_of_comment {glued : Bool} {c : Char} {cs : List Char} (h : (lexeme glued c cs).kind = .comment) :
    c = '#' := by
  have hne : ∀ k ∈ scalarKinds, k ≠ .comment := by decide
  unfold lexeme at h
  split at h
  · next hi =>
    cases h
    unfold indicator? at hi
    split at hi <;> cases hi
  · split at h
    · cases h
    · cases h
    · cases h
    · unfold carriageReturn at h
      split at h <;> cases h
    · rfl
    · unfold dashes at h
      split at h <;> cases h
    · exact absurd h (hne _ (quotes_doubleQuoted cs).kind)
    · exact absurd h (hne _ (quotes_singleQuoted cs).kind)
    · split at h
      · cases h
      · exact absurd h (hne _ (kind_plain _ cs))

theorem stops_of_comment {glued : Bool} {c : Char} {cs : List Char} (h : (lexeme glued c cs).kind = .comment) :
    ∀ x ∈ (lexeme glued c cs).rest.head?, x = '\r' ∨ x = '\n' := by
  obtain rfl := eq_hash_of_comment h
  rw [lexeme_hash] at h ⊢
  cases glued with
  | true => cases h
  | false =>
    intro x hx
    have hp := head?_rest_run hx
    simp only [Bool.and_eq_false_iff, decide_eq_false_iff_not, not_not] at hp
    exact hp

theorem glues_of_ne {k : Kind} (hw : k ≠ .whitespace) (hn : k ≠ .newline) : glues k = true := by
  cases k <;> first | rfl | contradiction

theorem isTrivia_of_ne {k : Kind} (hw : k ≠ .whitespace) (hn : k ≠ .newline) (hc : k ≠ .comment) :
    k.isTrivia = false := by
  cases k <;> first | rfl | contradiction

theorem glues_lexeme {glued : Bool} {c : Char} {cs u : List Char}
    (h : (lexeme glued c cs).rest.head? = some '#') :
    glues (lexeme glued c cs).kind = false ↔ Clear (u ++ c :: (lexeme glued c cs).tail) := by
  have hsound := (sound_lexeme glued c cs).regular
  have hcomment (hk : (lexeme glued c cs).kind = .comment) := stops_of_comment hk '#' h
  have hbare := (edged_lexeme glued c cs).bare
  generalize lexeme glued c cs = l at *
  rw [clear_append_cons]
  by_cases hw : l.kind = .whitespace
  · refine iff_of_true (by rw [hw]; rfl) fun x hx => ?_
    have hblank := hsound.blank hw x (List.mem_of_getLast? hx)
    rw [isGap, hblank, Bool.true_or]
  by_cases hn : l.kind = .newline
  · refine iff_of_true (by rw [hn]; rfl) fun x hx => ?_
    obtain ⟨v, hv⟩ := hsound.newline hn
    have htext : c :: l.tail = v ++ ['\n'] := hv
    rw [htext, List.getLast?_concat, Option.mem_some] at hx
    rw [← hx]
    rfl
  have hk : l.kind ≠ .comment := fun hk => by rcases hcomment hk with h | h <;> cases h
  refine iff_of_false (by rw [glues_of_ne hw hn]; decide) fun hgap => ?_
  obtain ⟨x, hx⟩ : ∃ x, (c :: l.tail).getLast? = some x :=
    ⟨_, List.getLast?_eq_getLast_of_ne_nil (List.cons_ne_nil _ _)⟩
  have hrest := hbare (isTrivia_of_ne hw hn hk) x hx (hgap x hx)
  rcases hrest with hrest | hrest | ⟨v, hrest⟩ <;> rw [hrest] at h <;> cases h

theorem hash_of_lexeme {glued : Bool} {u cs : List Char} (hg : glued = false ↔ Clear u) :
    Hash u ⟨(hash glued cs).kind, '#' :: (hash glued cs).tail⟩ (hash glued cs).rest := by
  cases glued with
  | true =>
    have hu : ¬ Clear u := fun h => absurd (hg.2 h) nofun
    exact ⟨fun h => absurd h hu, fun h => absurd h hu, fun h => absurd h hu, fun _ => rfl⟩
  | false =>
    have hu : Clear u := hg.1 rfl
    refine ⟨fun _ => rfl, fun _ c hc => ?_, fun _ => @stops_of_comment false '#' cs rfl,
      fun h => absurd hu h⟩
    rcases List.mem_cons.1 hc with rfl | hc
    · decide
    · have hp := List.all_eq_true.1 List.all_takeWhile c hc
      simpa using hp

theorem hash_of_scanFrom {glued : Bool} {u s : List Char} {t : Token} {ts us : List Token}
    (hg : s.head? = some '#' → (glued = false ↔ Clear u)) (h : scanFrom glued s = ts ++ t :: us)
    (ht : t.text.head? = some '#') : Hash (u ++ textOf ts) t (textOf us) := by
  -- the induction is on the tokens in front, and what it keeps is that a hash at the front of the text is glued just
  -- when the text scanned before says so
  induction ts generalizing glued u s with
  | nil =>
    cases s with
    | nil => simp [scanFrom] at h
    | cons c cs =>
      rw [scanFrom, List.nil_append] at h
      obtain ⟨rfl, rfl⟩ := List.cons.inj h
      obtain rfl : c = '#' := Option.some.inj ht
      rw [textOf_nil, List.append_nil, textOf_scanFrom]
      exact hash_of_lexeme (hg rfl)
  | cons x ts ih =>
    cases s with
    | nil => simp [scanFrom] at h
    | cons c cs =>
      rw [scanFrom, List.cons_append] at h
      obtain ⟨rfl, hs⟩ := List.cons.inj h
      rw [textOf_cons, ← List.append_assoc]
      exact ih glues_lexeme hs

theorem between_of_scan {s : List Char} {t : Token} {ts us : List Token} (h : scan s = ts ++ t :: us) :
    Between (textOf ts) t (textOf us) := by
  have hmem : t ∈ scan s := h ▸ List.mem_append_right ts List.mem_cons_self
  have ht := scanned_of_mem_scan hmem
  have hclear : s.head? = some '#' → (false = false ↔ Clear []) := fun _ => iff_of_true rfl nofun
  refine ⟨?_, ?_, fun hfeed => ?_, hash_of_scanFrom hclear h⟩
  · exact textOf_cons t us ▸ parted_scanFrom h
  · rw [List.append_cons] at h
    have hp := parted_scanFrom h
    rwa [textOf_append, textOf_cons, textOf_nil, List.append_nil] at hp
  · by_cases hn : t.kind = .newline
    · exact .inl hn
    by_cases hq : t.kind = .quoted
    · exact .inr (.inl hq)
    · have hk : t.kind = .text := by
        by_contra hk
        exact ht.regular.oneLine hn hq hk hfeed
      exact .inr (.inr ⟨hk, ht.feeds.opensQuote hn hfeed⟩)

theorem map_fst_spansFrom (n : Nat) (ts : List Token) : (spansFrom n ts).map Prod.fst = ts := by
  induction ts generalizing n with
  | nil => rfl
  | cons t ts ih => rw [spansFrom, List.map_cons, ih]

theorem tiles_spansFrom {ts : List Token} (h : ∀ t ∈ ts, t.text ≠ []) (n : Nat) :
    Tiles n (spansFrom n ts) (n + byteLength (textOf ts)) := by
  induction ts generalizing n with
  | nil => rfl
  | cons t ts ih =>
    obtain ⟨ht, hts⟩ := List.forall_mem_cons.1 h
    have hpos : 0 < byteLength t.text := by
      obtain ⟨c, cs, hc⟩ := List.exists_cons_of_ne_nil ht
      have := c.utf8Size_pos
      rw [hc, byteLength_cons]
      omega
    refine ⟨rfl, Nat.lt_add_of_pos_right hpos, ?_⟩
    rw [textOf_cons, byteLength_append, ← Nat.add_assoc]
    exact ih hts _

theorem exists_of_mem_spansFrom {n : Nat} {ts : List Token} {x : Token × Nat × Nat} (h : x ∈ spansFrom n ts) :
    ∃ us vs, ts = us ++ x.1 :: vs ∧
      x.2 = (n + byteLength (textOf us), n + byteLength (textOf us ++ x.1.text)) := by
  induction ts generalizing n with
  | nil => cases h
  | cons t ts ih =>
    rcases List.mem_cons.1 h with rfl | h
    · exact ⟨[], ts, rfl, rfl⟩
    · obtain ⟨us, vs, rfl, hx⟩ := ih h
      refine ⟨t :: us, vs, rfl, hx.trans ?_⟩
      rw [textOf_cons, List.append_assoc, byteLength_append t.text, byteLength_append t.text, Nat.add_assoc,
        Nat.add_assoc]

/-- Tokens with their spans are a partition of the text. -/
theorem partition_scan (s : List Char) : Partition s (spans (scan s)) where
  tiles := by
    have h := tiles_spansFrom (fun t ht => (scanned_of_mem_scan (s := s) ht).regular.nonempty) 0
    rwa [textOf_scan, Nat.zero_add] at h
  slices x hx := by
    obtain ⟨us, vs, hs, hspan⟩ := exists_of_mem_spansFrom hx
    refine ⟨textOf us, textOf vs, ?_, ?_, between_of_scan hs⟩
    · rw [← textOf_scan s, hs, textOf_append, textOf_cons, List.append_assoc]
    · rw [hspan, Nat.zero_add, Nat.zero_add]
  blanks := by
    rw [← List.isChain_map (f := Prod.fst) (R := Apart), spans, map_fst_spansFrom]
    exact isChain_scan s

end Token

end LosslessYaml
