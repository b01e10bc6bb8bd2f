import LosslessYaml.Proofs.Writing.Read
import LosslessYaml.Proofs.Writing.Rules

namespace LosslessYaml

namespace Writing

open Token Placed Grammar Rule

namespace Shape

def test : Shape → List Placed → Bool
  | .mapping => atEntry
  | .sequence => atDash

def entryRule : Shape → Nat → Rule
  | .mapping => pair blockNode
  | .sequence => item blockNode

def valueRule : Shape → Nat → Rule
  | .mapping => pairValue blockNode
  | .sequence => itemValue blockNode

def rows (k : Shape) (col : Nat) : Rule :=
  (k.entryRule col).andThen
    (loop (entryFollows col k.test) (trivia.andThen (k.entryRule col)))

theorem advances_rows (k : Shape) (col : Nat) :
    Advances (entryFollows col k.test) (trivia.andThen (k.entryRule col)) := by
  cases k with
  | mapping => exact advances_pairs col
  | sequence => exact advances_items col

theorem test_nil (k : Shape) : k.test [] = false := by
  cases k <;> rfl

end Shape

section Heads

/-- The tokens of an entry of shape `k` in column `n`. -/
structure Heads (k : Shape) (n : Nat) (ts : List Placed) : Prop where
  kind : next ts = .text ∨ next ts = .dash
  column : column ts = n
  test : k.test ts = true
  atDash : k = .mapping → atDash ts = false
  atProperty : atProperty ts = false

section Kinds

variable {k : Shape} {n : Nat} {ts : List Placed}

theorem Heads.ne_nil (h : Heads k n ts) : ts ≠ [] := by
  rintro rfl
  rcases h.kind with h | h <;> cases h

theorem Heads.atMarker (h : Heads k n ts) : atMarker ts = false := by
  rcases h.kind with h | h <;> simp [Grammar.atMarker, atIndicator, h]

theorem Heads.not_isTrivia (h : Heads k n ts) : (next ts).isTrivia = false := by
  rcases h.kind with h | h <;> rw [h] <;> rfl

theorem Heads.contentAhead (h : Heads k n ts) : contentAhead ts = true := by
  simp [Grammar.contentAhead, pastTrivia_of_not_isTrivia h.not_isTrivia, h.ne_nil, h.atMarker]

theorem Heads.atBlockLiteral (h : Heads k n ts) : atBlockLiteral ts = false := by
  rcases h.kind with h | h <;> simp [Grammar.atBlockLiteral, h]

theorem Heads.atLineEnd (h : Heads k n ts) {b : Placed} (hb : b.kind = .whitespace) :
    atLineEnd (b :: ts) = false := by
  rcases h.kind with h | h <;> simp [Grammar.atLineEnd, pastBlank, hb, h]

end Kinds

variable {k : Shape} {n : Nat} {fresh glued : Bool} {t : List Char}

theorem isWord_read (w : Word) (n : Nat) (fresh : Bool) : IsWord ⟨⟨.text, w.chars⟩, n, fresh⟩ := by
  refine ⟨rfl, fun c hc => w.alphanum c ?_⟩
  exact List.mem_of_mem_head? hc

theorem heads_read (h : Head k) (ht : Spaced t) :
    Heads k n (read n fresh glued (h.text ++ t)) ∧
      startsLine (read n fresh glued (h.text ++ t)) = fresh := by
  have hg : ∀ m, atGap (read m false true t) = true := fun m => atGap_of_spaced ht
  cases h with
  | key w =>
    rw [Head.text, List.append_assoc, List.singleton_append, read_key]
    have hw := isWord_read w n fresh
    refine ⟨⟨.inl rfl, rfl, ?_, fun _ => ?_, hw.atProperty _⟩, rfl⟩
    · simp [Shape.test, atEntry, atQuestion, Grammar.atMarker, Grammar.atDash, atIndicator,
        Grammar.atBlockLiteral, colonAhead, Placed.kind, hg]
    · simp [Grammar.atDash, atIndicator, Placed.kind]
  | dash =>
    rw [Head.text, List.singleton_append, read_dash ht]
    refine ⟨⟨.inr rfl, rfl, ?_, fun h => absurd h (by decide), ?_⟩, rfl⟩
    · simp [Shape.test, Grammar.atDash, atIndicator, Placed.kind, hg]
    · simp [Grammar.atProperty, Placed.kind]

end Heads

section Trivia

variable {n : Nat} {fresh glued : Bool} {s : List Char} {cs : List Tree} {vs : List Placed}

theorem gives_spaces (d : Nat) (hs : ∀ c ∈ s.head?, Text.isBlank c = false)
    (h : Gives trivia (read (n + d) fresh false s) cs vs) :
    Gives trivia (read n fresh false (spaces d ++ s)) (indentTrees d ++ cs) vs := by
  cases d with
  | zero => exact h
  | succ d =>
    rw [read_spaces d hs]
    exact gives_trivia_cons rfl h

theorem gives_break (e : Break) (h : Gives trivia (read 0 true false s) cs vs) :
    Gives trivia (read n fresh glued (e.text ++ s)) (.leaf ⟨.newline, e.text⟩ :: cs) vs := by
  rw [read_break]
  exact gives_trivia_cons rfl h

theorem gives_opens (hs : Opens s) (n : Nat) (fresh glued : Bool) :
    Gives trivia (read n fresh glued s) [] (read n fresh glued s) := by
  obtain ⟨t, ts, hread, hk⟩ := read_opens hs n fresh glued
  rw [hread]
  exact gives_trivia_not hk

theorem gives_breakTrees (e : Break) (d : Nat) (hs : Opens s) :
    Gives trivia (read n fresh glued (e.text ++ (spaces d ++ s))) (breakTrees e d) (read d true false s) := by
  have h := gives_spaces (n := 0) d hs.isBlank (gives_opens hs (0 + d) true false)
  rw [Nat.zero_add, List.append_nil] at h
  exact gives_break e h

end Trivia

section Ends

def Shape.EndsBlock (k : Shape) (c : Nat) (ts : List Placed) : Prop :=
  column ts < c ∨ k = .sequence ∧ column ts = c ∧ atDash ts = false

def Shape.EndsEntry (k : Shape) (c : Nat) (ts : List Placed) : Prop :=
  column ts < c ∨ column ts = c ∧ (k = .mapping → atDash ts = false)

theorem Shape.EndsBlock.entry {k : Shape} {c : Nat} {ts : List Placed} (h : k.EndsBlock c ts) :
    k.EndsEntry c ts := by
  rcases h with h | ⟨-, hc, hd⟩
  · exact .inl h
  · exact .inr ⟨hc, fun _ => hd⟩

theorem Shape.EndsEntry.inner {k inner : Shape} {c d : Nat} {ts : List Placed} (h : k.EndsEntry c ts)
    (hd : k.Below c inner d) : inner.EndsBlock d ts := by
  rcases hd with hd | ⟨rfl, hk, hi⟩
  · rcases h with h | h
    · exact .inl (Nat.lt_trans h hd)
    · exact .inl (by omega)
  · rcases h with h | ⟨hc, ht⟩
    · exact .inl h
    · exact .inr ⟨hi, hc, ht hk⟩

theorem Shape.EndsEntry.lt {k : Shape} {c : Nat} {ts : List Placed} (h : k.EndsEntry c ts) : column ts < c + 1 := by
  rcases h with h | ⟨h, -⟩ <;> omega

/-- What may follow a part of what is written: what stands at the end, or a line whose tokens satisfy `p`. -/
inductive Ends (S : Style) (p : List Placed → Prop) : List Char → Prop
  | ending (e : S.Ending) : Ends S p (S.endingText e)
  | line (g : S.Gap) {d : Nat} {s : List Char} (hs : Opens s) (hp : p (read d true false s)) :
      Ends S p (S.gapText g ++ (spaces d ++ s))

class Style.Gapped (S : Style) : Prop where
  endsLine_gap (g : S.Gap) (s : List Char) : EndsLine (S.gapText g ++ s)
  endsLine_ending (e : S.Ending) : EndsLine (S.endingText e)
  gives_gap (g : S.Gap) (d : Nat) {s : List Char} (hs : Opens s) (n : Nat) :
    Gives trivia (read n false true (S.gapText g ++ (spaces d ++ s))) (S.gapTrees g d) (read d true false s)
  gives_ending (e : S.Ending) (n : Nat) : Gives trivia (read n false true (S.endingText e)) (S.endingTrees e) []

class Style.Lawful (S : Style) : Prop extends S.Gapped where
  bare_inline {c : Nat} (x : S.Inline c) (r : List Char) : ∀ ch ∈ (S.inlineText x ++ r).head?, Text.isBlank ch = false
  reads_inline {c : Nat} (x : S.Inline c) {r : List Char} (hr : Ends S (fun ts => column ts < c + 1) r) (n : Nat) :
    ∃ m, Grammar.Inline c (read n false false (S.inlineText x ++ r)) (S.inlineTree x) (read m false true r)

variable {S : Style} {p q : List Placed → Prop} {r : List Char} {n : Nat}

theorem Ends.imp (h : Ends S p r) (hpq : ∀ ts, p ts → q ts) : Ends S q r := by
  cases h with
  | ending e => exact .ending e
  | line g hs hp => exact .line g hs (hpq _ hp)

variable [S.Gapped]

theorem Style.pastTrivia_gap (g : S.Gap) (d : Nat) {s : List Char} (hs : Opens s) (n : Nat) :
    pastTrivia (read n false true (S.gapText g ++ (spaces d ++ s))) = read d true false s := by
  rw [← rest_trivia, Gapped.gives_gap g d hs n]

theorem Ends.endsLine (h : Ends S p r) : EndsLine r := by
  cases h with
  | ending e => exact Style.Gapped.endsLine_ending e
  | line g hs hp => exact Style.Gapped.endsLine_gap g _

theorem Ends.pastTrivia (h : Ends S p r) :
    pastTrivia (read n false true r) = [] ∨ p (pastTrivia (read n false true r)) := by
  cases h with
  | ending e =>
    left
    rw [← rest_trivia, Style.Gapped.gives_ending e n]
  | line g hs hp =>
    right
    rw [Style.pastTrivia_gap g _ hs]
    exact hp

theorem reads_word (w : Word) {c : Nat} (hr : Ends S (fun ts => column ts < c + 1) r) (n : Nat) :
    ∃ m, Grammar.Inline c (read n false false (w.chars ++ r)) w.tree (read m false true r) := by
  refine ⟨n + w.chars.length, ?_⟩
  rw [read_word w hr.endsLine.spaced.isPlain]
  exact inline_word (isWord_read w n false) (hr.endsLine.atLineEnd _ _ _) (plainContinues_of_pastTrivia hr.pastTrivia)

end Ends

section Text

variable {S : Style} [S.Gapped] {k : Shape} {c : Nat}

theorem Slot.spaced (s : Slot S k c) (r : List Char) : Spaced (s.text ++ r) := by
  cases s with
  | inline anchor x =>
    rw [Slot.text, List.append_assoc]
    exact spaced_anchorText anchor (.inr ⟨_, rfl⟩)
  | nested anchor g h b =>
    simp only [Slot.text, List.append_assoc]
    exact spaced_anchorText anchor (Style.Gapped.endsLine_gap g _).spaced
  | compact b => exact .inr ⟨_, rfl⟩

theorem Block.text_eq (b : Block S k c) (r : List Char) :
    ∃ (h : Head k) (t : List Char), b.text ++ r = h.text ++ t ∧ Spaced t := by
  cases b with
  | last h s => exact ⟨h, s.text ++ r, by simp [Block.text], s.spaced r⟩
  | more h s g rest =>
    exact ⟨h, s.text ++ (S.gapText g ++ (spaces c ++ (rest.text ++ r))), by simp [Block.text], s.spaced _⟩

theorem Block.opens (b : Block S k c) (r : List Char) : Opens (b.text ++ r) := by
  obtain ⟨h, t, ht, -⟩ := b.text_eq r
  rw [ht]
  exact h.opens t

theorem Block.heads (b : Block S k c) (r : List Char) (n : Nat) (fresh glued : Bool) :
    Heads k n (read n fresh glued (b.text ++ r)) ∧
      startsLine (read n fresh glued (b.text ++ r)) = fresh := by
  obtain ⟨h, t, ht, hs⟩ := b.text_eq r
  rw [ht]
  exact heads_read h hs

theorem Block.ends (b : Block S k c) (g : S.Gap) (r : List Char) :
    Ends S (k.EndsEntry c) (S.gapText g ++ (spaces c ++ (b.text ++ r))) := by
  have hh := (b.heads r c true false).1
  exact .line g (b.opens r) (.inr ⟨hh.column, hh.atDash⟩)

end Text

section Reads

variable {S : Style}

def Block.Reads {k : Shape} {c : Nat} (b : Block S k c) : Prop :=
  ∀ fresh glued r, Ends S (k.EndsBlock c) r → ∃ n,
    Gives (k.rows c) (read c fresh glued (b.text ++ r)) b.trees (read n false true r)

/-- How the value of an entry is read behind its head. In a compact item, columns go on behind the dash. -/
def Slot.Reads {k : Shape} {c : Nat} (s : Slot S k c) : Prop :=
  ∀ n r, (k = .sequence → n = c + 1) → Ends S (k.EndsEntry c) r → ∃ m,
    Gives (k.valueRule c) (read n false true (s.text ++ r)) s.trees (read m false true r)

section Rows

variable [S.Lawful] {k : Shape} {c : Nat} {r : List Char}

theorem gives_entry (h : Head k) {s : Slot S k c} (hs : s.Reads) (hr : Ends S (k.EndsEntry c) r)
    (fresh glued : Bool) :
    ∃ n, Gives (k.entryRule c) (read c fresh glued (h.text ++ (s.text ++ r)))
      [.node k.entry (h.trees ++ s.trees)] (read n false true r) := by
  cases h with
  | key w =>
    obtain ⟨n, hv⟩ := hs (c + w.chars.length + 1) r nofun hr
    refine ⟨n, ?_⟩
    rw [Head.text, List.append_assoc, List.singleton_append, read_key]
    exact gives_pair (isWord_read w c fresh) rfl (atGap_of_spaced (s.spaced r)) hv
  | dash =>
    obtain ⟨n, hv⟩ := hs (c + 1) r (fun _ => rfl) hr
    refine ⟨n, ?_⟩
    rw [Head.text, List.singleton_append, read_dash (s.spaced r)]
    exact gives_item _ hv

theorem entryFollows_of_ends {ts : List Placed}
    (h : pastTrivia ts = [] ∨ k.EndsBlock c (pastTrivia ts)) : entryFollows c k.test ts = false := by
  simp only [entryFollows]
  rcases h with h | h | ⟨rfl, -, hd⟩
  · simp [h, k.test_nil]
  · simp [Nat.ne_of_lt h]
  · simp [Shape.test, hd]

theorem reads_last (h : Head k) {s : Slot S k c} (hs : s.Reads) : (Block.last h s).Reads := by
  intro fresh glued r hr
  obtain ⟨n, he⟩ := gives_entry h hs (hr.imp fun _ => Shape.EndsBlock.entry) fresh glued
  refine ⟨n, ?_⟩
  rw [Block.text, List.append_assoc]
  exact he.andThen (gives_loop_not (entryFollows_of_ends hr.pastTrivia) _)

theorem reads_more (h : Head k) {s : Slot S k c} (hs : s.Reads) (g : S.Gap) {rest : Block S k c}
    (hrest : rest.Reads) : (Block.more h s g rest).Reads := by
  intro fresh glued r hr
  obtain ⟨m, he⟩ := gives_entry h hs (rest.ends g r) fresh glued
  obtain ⟨n, hb⟩ := hrest true false r hr
  have htrivia : Gives trivia (read m false true (S.gapText g ++ (spaces c ++ (rest.text ++ r)))) (S.gapTrees g c)
      (read c true false (rest.text ++ r)) := Style.Gapped.gives_gap g c (rest.opens r) m
  refine ⟨n, ?_⟩
  simp only [Block.text, List.append_assoc]
  refine he.andThen (Gives.loop ?_ (k.advances_rows c) ?_)
  · rw [andThen_assoc]
    exact htrivia.andThen hb
  · have hpast : Grammar.pastTrivia (read m false true (S.gapText g ++ (spaces c ++ (rest.text ++ r)))) =
        read c true false (rest.text ++ r) := by
      rw [← rest_trivia, htrivia]
    obtain ⟨hh, hstart⟩ := rest.heads r c true false
    simp only [entryFollows, hpast, hh.column, hh.test, hstart]
    decide

end Rows

section Slots

variable [S.Lawful] {k inner : Shape} {c d n : Nat} {r : List Char}

theorem gives_inline {t : Tree} {u : List Char} (anchor : Option Word)
    (hu : ∀ c ∈ u.head?, Text.isBlank c = false)
    (hi : ∀ n, ∃ m, Inline c (read n false false u) t (read m false true r)) :
    ∃ m, Gives (k.valueRule c) (read n false true (anchorText anchor ++ ' ' :: u))
      (anchorTrees anchor ++ [space, t]) (read m false true r) := by
  cases anchor with
  | none =>
    obtain ⟨m, h⟩ := hi (n + 1)
    refine ⟨m, ?_⟩
    rw [anchorText, List.nil_append, read_space hu]
    cases k with
    | mapping => exact h.pair rfl
    | sequence => exact h.item rfl
  | some a =>
    obtain ⟨m, h⟩ := hi (n + 1 + a.chars.length + 1 + 1)
    refine ⟨m, ?_⟩
    rw [read_anchorText a (.inr ⟨_, rfl⟩), read_space hu]
    cases k with
    | mapping => exact h.pair_anchor ⟨rfl, rfl⟩ rfl rfl
    | sequence => exact h.item_anchor ⟨rfl, rfl⟩ rfl rfl

theorem reads_inline (anchor : Option Word) (x : S.Inline c) : (Slot.inline anchor x : Slot S k c).Reads := by
  intro n r _ hr
  rw [Slot.text, List.append_assoc, List.cons_append]
  exact gives_inline anchor (Style.Lawful.bare_inline x r)
    fun n => Style.Lawful.reads_inline x (hr.imp fun _ => Shape.EndsEntry.lt) n

theorem gives_collection {b : Block S k d} (hb : b.Reads) (hr : Ends S (k.EndsBlock d) r) (min : Nat)
    (fresh glued : Bool) :
    ∃ n, Gives (blockNode min) (read d fresh glued (b.text ++ r)) [.node k.collection b.trees]
      (read n false true r) := by
  obtain ⟨n, h⟩ := hb fresh glued r hr
  have hh := (b.heads r d fresh glued).1
  have hbare : Gives (bareNode blockNode min) (read d fresh glued (b.text ++ r)) [.node k.collection b.trees]
      (read n false true r) := by
    refine Eq.trans ?_ (h.within k.collection)
    rw [bareNode, hh.column]
    cases k with
    | mapping =>
      have ht : atEntry (read d fresh glued (b.text ++ r)) = true := hh.test
      simp only [hh.atDash rfl, hh.atBlockLiteral, ht, Bool.false_eq_true, if_false, if_true]
      rfl
    | sequence =>
      have ht : Grammar.atDash (read d fresh glued (b.text ++ r)) = true := hh.test
      simp only [ht, if_true]
      rfl
  exact ⟨n, gives_blockNode hbare hh.atProperty⟩

section Below

variable {b : Block S inner d} (hb : b.Reads) (hr : Ends S (inner.EndsBlock d) r) (g : S.Gap)
include hb hr

theorem gives_deeper (hd : c < d) (n : Nat) :
    ∃ m, Gives (deeper blockNode c) (read n false true (S.gapText g ++ (spaces d ++ (b.text ++ r))))
      (S.gapTrees g d ++ [.node inner.collection b.trees]) (read m false true r) := by
  obtain ⟨m, h⟩ := gives_collection hb hr (c + 1) true false
  have hh := (b.heads r d true false).1
  refine ⟨m, ((Style.Gapped.gives_gap g d (b.opens r) n).andThen h).when ?_⟩
  simp [contentAhead, Style.pastTrivia_gap g d (b.opens r), hh.ne_nil, hh.atMarker, hh.column, hd]

theorem gives_pairValueBelow (hd : Shape.mapping.Below c inner d) (n : Nat) :
    ∃ m, Gives (pairValueBelow blockNode c) (read n false true (S.gapText g ++ (spaces d ++ (b.text ++ r))))
      (S.gapTrees g d ++ [.node inner.collection b.trees]) (read m false true r) := by
  have hh := (b.heads r d true false).1
  rcases hd with hd | ⟨rfl, -, rfl⟩
  · obtain ⟨m, h⟩ := gives_deeper hb hr g hd n
    refine ⟨m, h.branch_not ?_ _⟩
    simp [atFlushSequence, Style.pastTrivia_gap g d (b.opens r), hh.column, Nat.ne_of_gt hd]
  · -- level with its key, where only a sequence may stand
    obtain ⟨m, h⟩ := hb true false r hr
    have ht : Grammar.atDash (read c true false (b.text ++ r)) = true := hh.test
    refine ⟨m, ((Style.Gapped.gives_gap g c (b.opens r) n).andThen (h.within .blockSequence)).branch ?_ _⟩
    simp [atFlushSequence, Style.pastTrivia_gap g c (b.opens r), hh.column, ht]

end Below

theorem reads_nested (anchor : Option Word) (g : S.Gap) (hd : k.Below c inner d) {b : Block S inner d}
    (hb : b.Reads) : (Slot.nested anchor g hd b).Reads := by
  intro n r _ hr
  have hr' := hr.imp fun _ h => h.inner hd
  obtain ⟨hspaced, hend⟩ : EndsLine (S.gapText g ++ (spaces d ++ (b.text ++ r))) := Style.Gapped.endsLine_gap g _
  have hdeeper (hd : Shape.sequence.Below c inner d) := gives_deeper hb hr' g (hd.resolve_right fun h => by simp at h)
  simp only [Slot.text, List.append_assoc]
  cases anchor with
  | none =>
    cases k with
    | mapping =>
      obtain ⟨m, h⟩ := gives_pairValueBelow hb hr' g hd n
      exact ⟨m, h.branch (hend _ _ _) _⟩
    | sequence =>
      obtain ⟨m, h⟩ := hdeeper hd n
      exact ⟨m, h.branch (hend _ _ _) _⟩
  | some a =>
    have ha (n : Nat) : IsAnchor ⟨⟨.text, '&' :: a.chars⟩, n, false⟩ := ⟨rfl, rfl⟩
    have hend := hend (n + 1 + a.chars.length + 1) false true
    have hprops := gives_properties_end (ha (n + 1)) (atGap_of_spaced hspaced) hend
    rw [read_anchorText a hspaced]
    cases k with
    | mapping =>
      -- the anchor at the end of the key's line belongs to the pair, and that of an item to the collection below
      obtain ⟨m, h⟩ := gives_pairValueBelow hb hr' g hd (n + 1 + a.chars.length + 1)
      exact ⟨m, ((gives_blank rfl).andThen (hprops.andThen (h.branch hend _))).branch_not
        (atLineEnd_of_text rfl rfl _) _⟩
    | sequence =>
      obtain ⟨m, h⟩ := hdeeper hd (n + 1 + a.chars.length + 1)
      have hentry := atEntry_of_text (t := ⟨⟨.text, '&' :: a.chars⟩, n + 1, false⟩) rfl
        (colonAhead_of_atLineEnd hend 0)
      have hnode := (blockNode_unfold (c + 1) _).trans
        ((hprops.andThen (h.branch hend (bareNode blockNode (c + 1)))).branch
          (by simp [(ha (n + 1)).atProperty, hentry]) (bareNode blockNode (c + 1)))
      exact ⟨m, ((gives_blank rfl).andThen (Gives.andThen_nil hnode
        (gives_restOfLine (hr.endsLine.atLineEnd _ _ _)))).branch_not (atLineEnd_of_text rfl rfl _) _⟩

theorem reads_compact {b : Block S inner (c + 2)} (hb : b.Reads) : (Slot.compact b).Reads := by
  intro n r hn hr
  obtain rfl := hn rfl
  obtain ⟨m, h⟩ := gives_collection hb
    (hr.imp fun _ h => h.inner (.inl (Nat.lt_add_of_pos_right Nat.two_pos))) (c + 1) false false
  refine ⟨m, ?_⟩
  rw [Slot.text, List.cons_append, read_space (b.opens r).isBlank]
  exact ((gives_blank rfl).andThen (h.andThen (gives_restOfLine (hr.endsLine.atLineEnd _ _ _)))).branch_not
    ((b.heads r (c + 2) false false).1.atLineEnd rfl) _

end Slots

mutual

theorem Block.reads [S.Lawful] {k : Shape} {c : Nat} : ∀ b : Block S k c, b.Reads
  | .last h s => reads_last h s.reads
  | .more h s g rest => reads_more h s.reads g rest.reads

theorem Slot.reads [S.Lawful] {k : Shape} {c : Nat} : ∀ s : Slot S k c, s.Reads
  | .inline anchor x => reads_inline anchor x
  | .nested anchor g h b => reads_nested anchor g h b.reads
  | .compact b => reads_compact b.reads

end

end Reads

end Writing

end LosslessYaml
