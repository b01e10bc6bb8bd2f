import LosslessYaml.Proofs.Flow.Rules
import LosslessYaml.Proofs.Writing.Read

namespace LosslessYaml

namespace Flow

open Grammar Token Rule
open Writing (Word Opens read)

def Reads (s : List Char) (ts : List Placed) : Prop := ∃ n fresh glued, ts = read n fresh glued s

section Reads

variable {s : List Char} {ts : List Placed}

theorem Reads.eq_nil (h : Reads [] ts) : ts = [] := by
  obtain ⟨n, fresh, glued, rfl⟩ := h
  exact Writing.read_nil

theorem Reads.lexeme {c : Char} (h : Reads (c :: s) ts) :
    ∃ glued t us, ts = t :: us ∧ t.token = ⟨(Token.lexeme glued c s).kind, c :: (Token.lexeme glued c s).tail⟩ ∧
      Reads (Token.lexeme glued c s).rest us := by
  obtain ⟨n, fresh, glued, rfl⟩ := h
  exact ⟨glued, _, _, Writing.read_lexeme n fresh rfl, rfl, _, _, _, rfl⟩

theorem Reads.indicator {c : Char} {k : Kind} (h : Reads (c :: s) ts) (hk : indicator? c = some k) :
    ∃ t us, ts = t :: us ∧ t.token = ⟨k, [c]⟩ ∧ Reads s us := by
  obtain ⟨n, fresh, glued, rfl⟩ := h
  exact ⟨_, _, Writing.read_indicator hk, rfl, _, _, _, rfl⟩

theorem Reads.word (w : Word) (h : Reads (w.chars ++ s) ts) (hs : ∀ c ∈ s.head?, isPlain c = false) :
    ∃ t us, ts = t :: us ∧ t.token = ⟨.text, w.chars⟩ ∧ Reads s us := by
  obtain ⟨n, fresh, glued, rfl⟩ := h
  exact ⟨_, _, Writing.read_word w hs, rfl, _, _, _, rfl⟩

theorem Reads.not_isTrivia (h : Reads s ts) (hs : Opens s) : (next ts).isTrivia = false := by
  obtain ⟨n, fresh, glued, rfl⟩ := h
  obtain ⟨t, us, hread, hk⟩ := Writing.read_opens hs n fresh glued
  rw [hread]
  exact hk

theorem Reads.feed (h : Reads ('\n' :: s) ts) : ∃ t us, ts = t :: us ∧ t.kind = .newline ∧ Reads s us := by
  obtain ⟨_, t, us, rfl, ht, hus⟩ := h.lexeme
  exact ⟨t, us, rfl, congrArg Token.kind ht, hus⟩

theorem exists_dropWhile_gap {g : List Char} (hg : ∀ c ∈ g, c = ' ' ∨ c = '\n') (hs : Opens s) :
    ∃ g', (g ++ s).dropWhile Text.isBlank = g' ++ s ∧ g' <:+ g ∧ (g' = [] ∨ ∃ g'', g' = '\n' :: g'') := by
  induction g with
  | nil =>
    refine ⟨[], ?_, List.suffix_refl _, .inl rfl⟩
    exact (Writing.takeWhile_append_of_all (w := []) (List.forall_mem_nil _) hs.isBlank).2
  | cons c g ih =>
    obtain ⟨hc, htail⟩ := List.forall_mem_cons.1 hg
    rcases hc with rfl | rfl
    · obtain ⟨g', hrest, hsuffix, hstart⟩ := ih htail
      exact ⟨g', hrest, hsuffix.trans (List.suffix_cons _ _), hstart⟩
    · exact ⟨'\n' :: g, rfl, List.suffix_refl _, .inr ⟨g, rfl⟩⟩

theorem Reads.blanks {g : List Char} (h : Reads (' ' :: (g ++ s)) ts) (hg : ∀ c ∈ g, c = ' ' ∨ c = '\n')
    (hs : Opens s) : ∃ t us g', ts = t :: us ∧ t.kind = .whitespace ∧ Reads (g' ++ s) us ∧ g' <:+ g ∧
      (g' = [] ∨ ∃ g'', g' = '\n' :: g'') := by
  obtain ⟨_, t, us, rfl, ht, hus⟩ := h.lexeme
  obtain ⟨g', hrest, hsuffix, hstart⟩ := exists_dropWhile_gap hg hs
  refine ⟨t, us, g', rfl, congrArg Token.kind ht, ?_, hsuffix, hstart⟩
  rw [← hrest]
  exact hus

theorem Reads.gap {g : List Char} (hg : ∀ c ∈ g, c = ' ' ∨ c = '\n') (hs : Opens s) (h : Reads (g ++ s) ts) :
    Reads s (pastTrivia ts) := by
  induction hn : g.length using Nat.strongRecOn generalizing g ts with
  | ind n ih =>
    cases g with
    | nil => rwa [pastTrivia_of_not_isTrivia (h.not_isTrivia hs)]
    | cons c g =>
      obtain ⟨hc, htail⟩ := List.forall_mem_cons.1 hg
      have hlen : g.length < n := by
        rw [← hn]
        exact Nat.lt_succ_self _
      rw [List.cons_append] at h
      rcases hc with rfl | rfl
      · obtain ⟨t, us, g', rfl, ht, hus, hsuffix, -⟩ := h.blanks htail hs
        rw [Writing.pastTrivia_cons (by rw [ht]; rfl)]
        exact ih _ (Nat.lt_of_le_of_lt hsuffix.length_le hlen) (fun c hc => htail c (hsuffix.subset hc)) hus rfl
      · obtain ⟨t, us, rfl, ht, hus⟩ := h.feed
        rw [Writing.pastTrivia_cons (by rw [ht]; rfl)]
        exact ih _ hlen htail hus rfl

theorem opens_indicator {c : Char} {k : Kind} (h : indicator? c = some k) (s : List Char) : Opens (c :: s) :=
  ⟨c, s, rfl, .inr (.inr (by rw [h]; rfl))⟩

theorem Reads.halts {g : List Char} {c : Char} {k : Kind} (hg : ∀ c ∈ g, c = ' ' ∨ c = '\n')
    (hk : indicator? c = some k) (hmem : k ∈ [Kind.comma, .rbracket, .rbrace]) (h : Reads (g ++ c :: s) ts) :
    Halts ts := by
  have hfirst {g' : List Char} {us : List Placed} (hus : Reads (g' ++ c :: s) us)
      (hg' : g' = [] ∨ ∃ g'', g' = '\n' :: g'') : next us ∈ [Kind.newline, .comma, .rbracket, .rbrace] := by
    rcases hg' with rfl | ⟨g'', rfl⟩
    · obtain ⟨t, vs, rfl, ht, -⟩ := hus.indicator hk
      rw [next_cons, Placed.kind, ht]
      exact List.mem_cons_of_mem _ hmem
    · obtain ⟨t, vs, rfl, ht, -⟩ := hus.feed
      rw [next_cons, ht]
      exact List.mem_cons_self
  have hstay (hnext : next ts ∈ [Kind.newline, .comma, .rbracket, .rbrace]) : Halts ts := by
    cases ts with
    | nil => exact absurd hnext (by decide)
    | cons t ts =>
      have hw : t.kind ≠ .whitespace := by
        intro hw
        rw [next_cons, hw] at hnext
        exact absurd hnext (by decide)
      rwa [Halts, pastBlank, if_neg hw]
  cases g with
  | nil => exact hstay (hfirst h (.inl rfl))
  | cons x g =>
    obtain ⟨hx, htail⟩ := List.forall_mem_cons.1 hg
    rcases hx with rfl | rfl
    · obtain ⟨t, us, g', rfl, ht, hus, -, hstart⟩ := h.blanks htail (opens_indicator hk s)
      rw [Halts, pastBlank, if_pos ht]
      exact hfirst hus hstart
    · exact hstay (hfirst h (.inr ⟨g, rfl⟩))

theorem Reads.atGap {g : List Char} (hg : ∀ c ∈ g, c = ' ' ∨ c = '\n') (hne : g ≠ []) (h : Reads (g ++ s) ts) :
    atGap ts = true := by
  cases g with
  | nil => exact absurd rfl hne
  | cons x g =>
    obtain ⟨_, t, us, rfl, ht, -⟩ := h.lexeme
    rw [Grammar.atGap, next_cons, Placed.kind, ht]
    rcases hg x List.mem_cons_self with rfl | rfl <;> rfl

end Reads

def Stops (s : List Char) : Prop :=
  ∃ (g : Gap) (c : Char) (k : Kind) (t : List Char), s = g.chars ++ c :: t ∧ indicator? c = some k ∧
    k ∈ [Kind.comma, .rbracket, .rbrace]

section Texts

variable {s : List Char} {ts : List Placed}

theorem Stops.halts (hs : Stops s) (h : Reads s ts) : Halts ts := by
  obtain ⟨g, c, k, t, rfl, hk, hmem⟩ := hs
  exact h.halts g.blank hk hmem

theorem Stops.isPlain (hs : Stops s) : ∀ c ∈ s.head?, isPlain c = false := by
  obtain ⟨⟨g, hg⟩, c, k, t, rfl, hk, -⟩ := hs
  cases g with
  | nil =>
    rintro x ⟨⟩
    simp [Token.isPlain, hk]
  | cons x g =>
    rintro y ⟨⟩
    rcases hg x List.mem_cons_self with rfl | rfl <;> decide

theorem indicator_openMark (b : Bracket) : ∃ c, b.openMark = ⟨b.opener, [c]⟩ ∧ indicator? c = some b.opener := by
  cases b <;> exact ⟨_, rfl, rfl⟩

theorem indicator_closeMark (b : Bracket) : ∃ c, b.closeMark = ⟨b.closer, [c]⟩ ∧ indicator? c = some b.closer := by
  cases b <;> exact ⟨_, rfl, rfl⟩

theorem Reads.openMark {b : Bracket} (h : Reads (b.openMark.text ++ s) ts) :
    ∃ t us, ts = t :: us ∧ t.token = b.openMark ∧ Reads s us := by
  obtain ⟨c, hb, hc⟩ := indicator_openMark b
  rw [hb] at h ⊢
  exact h.indicator hc

theorem Reads.closeMark {b : Bracket} (h : Reads (b.closeMark.text ++ s) ts) :
    ∃ t us, ts = t :: us ∧ t.token = b.closeMark ∧ Reads s us := by
  obtain ⟨c, hb, hc⟩ := indicator_closeMark b
  rw [hb] at h ⊢
  exact h.indicator hc

theorem kind_openMark {b : Bracket} {t : Placed} (h : t.token = b.openMark) : t.kind = b.opener := by
  rw [Placed.kind, h]
  cases b <;> rfl

theorem opens_closeMark (b : Bracket) (s : List Char) : Opens (b.closeMark.text ++ s) := by
  obtain ⟨c, hb, hc⟩ := indicator_closeMark b
  rw [hb]
  exact opens_indicator hc s

theorem stops_closeMark (g : Gap) (b : Bracket) (s : List Char) : Stops (g.chars ++ (b.closeMark.text ++ s)) := by
  obtain ⟨c, hb, hc⟩ := indicator_closeMark b
  rw [hb]
  exact ⟨g, c, b.closer, s, rfl, hc, by cases b <;> decide⟩

theorem stops_comma (g : Gap) (s : List Char) : Stops (g.chars ++ ',' :: s) := ⟨g, ',', .comma, s, rfl, rfl, by decide⟩

theorem Collection.opens {b : Bracket} (c : Collection b) (s : List Char) : Opens (c.text ++ s) := by
  obtain ⟨x, hb, hx⟩ := indicator_openMark b
  cases c <;> rw [Collection.text, hb] <;> exact opens_indicator hx _

theorem Value.opens (v : Value) (s : List Char) : Opens (v.text ++ s) := by
  cases v with
  | word w =>
    rw [Value.text]
    exact w.opens s
  | collection c =>
    rw [Value.text]
    exact c.opens s

theorem Member.opens {b : Bracket} (m : Member b) (s : List Char) : Opens (m.text ++ s) := by
  cases m with
  | value v =>
    rw [Member.text]
    exact v.opens s
  | pair key g hg v =>
    rw [Member.text, List.append_assoc]
    exact key.opens _

theorem Members.opens {b : Bracket} (ms : Members b) (s : List Char) : Opens (ms.text ++ s) := by
  cases ms with
  | last m =>
    rw [Members.text]
    exact m.opens s
  | more m before after rest =>
    rw [Members.text, List.append_assoc]
    exact m.opens _

end Texts

def Value.Reads (v : Value) : Prop :=
  ∀ s ts, Stops s → Flow.Reads (v.text ++ s) ts →
    Begins ts ∧ ∃ us, Produces flowNode ts [v.tree] us ∧ Flow.Reads s us

def Collection.Reads {b : Bracket} (c : Collection b) : Prop :=
  ∀ s ts, Flow.Reads (c.text ++ s) ts →
    next ts = b.opener ∧ ∃ us, Produces flowNode ts [c.tree] us ∧ Flow.Reads s us

def Members.Reads {b : Bracket} (ms : Members b) : Prop :=
  ∀ (front back : Gap) s ts,
    Flow.Reads (front.chars ++ (ms.text ++ (back.chars ++ (b.closeMark.text ++ s)))) ts →
    ∃ us, Produces (flowEntries flowNode b) ts ms.trees us ∧ Flow.Reads (back.chars ++ (b.closeMark.text ++ s)) us

def Member.Reads {b : Bracket} (m : Member b) : Prop :=
  ∀ s ts, Stops s → Flow.Reads (m.text ++ s) ts →
    Begins ts ∧ ∃ us, Produces (flowEntry flowNode b) ts [m.tree] us ∧ Flow.Reads s us

section Values

variable {b : Bracket}

theorem reads_word (w : Word) : (Value.word w).Reads := by
  intro s ts hs h
  rw [Value.text] at h
  obtain ⟨t, us, rfl, ht, hus⟩ := h.word w hs.isPlain
  have hkind : t.kind = .text := congrArg Token.kind ht
  refine ⟨?_, us, ?_, hus⟩
  · rw [Begins, next_cons, hkind]
    exact List.mem_cons_self
  · have hword := produces_word hkind (hs.halts hus).endsFlowPlain
    rwa [ht] at hword

theorem reads_collection {c : Collection b} (hc : c.Reads) : (Value.collection c).Reads := by
  intro s ts _ h
  rw [Value.text] at h
  obtain ⟨hnext, us, hproduces, hus⟩ := hc s ts h
  refine ⟨?_, us, ?_, hus⟩
  · rw [Begins, hnext]
    cases b <;> decide
  · rwa [Value.tree]

theorem reads_value {v : Value} (hv : v.Reads) : (Member.value v).Reads := by
  intro s ts hs h
  rw [Member.text] at h
  obtain ⟨hb, us, hproduces, hus⟩ := hv s ts hs h
  refine ⟨hb, us, ?_, hus⟩
  rw [Member.tree]
  exact produces_entry_value hb hproduces (hs.halts hus)

theorem reads_pair (key : Word) (g : Gap) (hg : g.chars ≠ []) {v : Value} (hv : v.Reads) :
    (Member.pair key g hg v).Reads := by
  intro s ts hs h
  rw [Member.text, List.append_assoc, List.cons_append, List.append_assoc] at h
  obtain ⟨t, us, rfl, ht, hus⟩ := h.word key (by rintro c ⟨⟩; rfl)
  obtain ⟨c, vs, rfl, hc, hvs⟩ := hus.indicator (k := .colon) rfl
  have htext : t.kind = .text := congrArg Token.kind ht
  have hcolon : c.kind = .colon := congrArg Token.kind hc
  obtain ⟨hb, ws, hproduces, hws⟩ := hv s _ hs (hvs.gap g.blank (v.opens s))
  refine ⟨?_, ws, ?_, hws⟩
  · rw [Begins, next_cons, htext]
    exact List.mem_cons_self
  · have hpair := produces_entry_pair htext hcolon (hvs.atGap g.blank hg) hb hproduces
    rwa [ht, hc] at hpair

theorem Reads.closing {g : Gap} {s : List Char} {ts : List Placed}
    (h : Flow.Reads (g.chars ++ (b.closeMark.text ++ s)) ts) :
    ∃ c us, pastTrivia ts = c :: us ∧ c.token = b.closeMark ∧ c.kind = b.closer ∧ Flow.Reads s us := by
  obtain ⟨c, us, hp, hc, hus⟩ := (h.gap g.blank (opens_closeMark b s)).closeMark
  refine ⟨c, us, hp, hc, ?_, hus⟩
  rw [Placed.kind, hc]
  cases b <;> rfl

theorem reads_last {m : Member b} (hm : m.Reads) : (Members.last m).Reads := by
  intro front back s ts h
  rw [Members.text] at h
  obtain ⟨hb, us, hproduces, hus⟩ := hm _ _ (stops_closeMark back b s) (h.gap front.blank (m.opens _))
  obtain ⟨c, vs, hp, -, hc, -⟩ := hus.closing
  exact ⟨us, produces_entries_entry hb hproduces (produces_entries_end (by rw [hp]; exact hc)), hus⟩

theorem reads_more {m : Member b} (hm : m.Reads) (before after : Gap) {rest : Members b} (hr : rest.Reads) :
    (Members.more m before after rest).Reads := by
  intro front back s ts h
  rw [Members.text, List.append_assoc, List.append_assoc, List.cons_append, List.append_assoc] at h
  obtain ⟨hb, us, hproduces, hus⟩ := hm _ _ (stops_comma before _) (h.gap front.blank (m.opens _))
  obtain ⟨t, vs, hp, ht, hvs⟩ := (hus.gap before.blank (opens_indicator (k := .comma) rfl _)).indicator rfl
  obtain ⟨ws, hentries, hws⟩ := hr after back s vs hvs
  have hcomma := produces_entries_comma (congrArg Token.kind ht) hp hentries
  rw [ht] at hcomma
  exact ⟨ws, produces_entries_entry hb hproduces hcomma, hws⟩

theorem reads_filled (front back : Gap) {ms : Members b} (hms : ms.Reads) :
    (Collection.filled front ms back).Reads := by
  intro s ts h
  simp only [Collection.text, List.append_assoc] at h
  obtain ⟨o, us, rfl, ho, hus⟩ := h.openMark
  obtain ⟨vs, hentries, hvs⟩ := hms front back s us hus
  obtain ⟨c, ws, hp, hc, hcloser, hws⟩ := hvs.closing
  have hopener := kind_openMark ho
  have hcollection := produces_collection hopener hentries hcloser hp
  rw [ho, hc] at hcollection
  exact ⟨hopener, ws, hcollection, hws⟩

theorem reads_empty (b : Bracket) (g : Gap) : (Collection.empty b g).Reads := by
  intro s ts h
  simp only [Collection.text, List.append_assoc] at h
  obtain ⟨o, us, rfl, ho, hus⟩ := h.openMark
  obtain ⟨c, ws, hp, hc, hcloser, hws⟩ := hus.closing
  have hopener := kind_openMark ho
  have hcollection := produces_collection hopener (produces_entries_end (by rw [hp]; exact hcloser)) hcloser hp
  rw [ho, hc] at hcollection
  exact ⟨hopener, ws, hcollection, hws⟩

end Values

mutual

theorem Value.reads : ∀ v : Value, v.Reads
  | .word w => reads_word w
  | .collection c => reads_collection c.reads

theorem Collection.reads {b : Bracket} : ∀ c : Collection b, c.Reads
  | .empty b g => reads_empty b g
  | .filled front ms back => reads_filled front back ms.reads

theorem Members.reads {b : Bracket} : ∀ ms : Members b, ms.Reads
  | .last m => reads_last m.reads
  | .more m before after rest => reads_more m.reads before after rest.reads

theorem Member.reads {b : Bracket} : ∀ m : Member b, m.Reads
  | .value v => reads_value v.reads
  | .pair key g hg v => reads_pair key g hg v.reads

end

/-- However a collection is written, it is parsed to a single document with the collection's tree, trivia apart. -/
theorem parse_collection {b : Bracket} (c : Collection b) :
    (parse c.text).bare = .node .stream [.node .document [c.tree]] := by
  have hreads : Reads (c.text ++ []) (Placed.place (scan c.text)) := ⟨0, true, false, by rw [List.append_nil]; rfl⟩
  obtain ⟨hopener, us, ⟨ds, hds, hbare⟩, hus⟩ := c.reads [] _ hreads
  obtain rfl := hus.eq_nil
  have htrivia := hreads.not_isTrivia (c.opens [])
  have hahead : contentAhead (Placed.place (scan c.text)) = true := by
    refine Begins.contentAhead ?_
    rw [pastTrivia_of_not_isTrivia htrivia, Begins, hopener]
    cases b <;> decide
  have hcolon := colonAhead_flowNode (Placed.remain_place c.text).spread hopener (by rw [hds])
  have hdocs := gives_documents (gives_trivia_not htrivia) htrivia hahead ((blockNode_of_opener hopener hcolon 0).trans hds)
    (gives_upTo_not (.inl rfl))
  rw [parse, Tree.ofPlaced, hdocs, Tree.bare, Tree.prune_node rfl, List.nil_append, Tree.pruneOf_node,
    Tree.prune_node rfl, hbare]
  rfl

example : (Collection.filled (b := .square) ⟨['\n', ' '], by simp⟩
      (.more (.value (.collection (.filled (b := .curly) ⟨[], by simp⟩
        (.last (.pair ⟨['k'], by simp, List.all_eq_true.1 rfl⟩ ⟨['\n'], by simp⟩ (by simp)
          (.word ⟨['v'], by simp, List.all_eq_true.1 rfl⟩))) ⟨[' '], by simp⟩)))
        ⟨[' '], by simp⟩ ⟨[], by simp⟩ (.last (.value (.collection (.empty .square ⟨[], by simp⟩)))))
      ⟨[], by simp⟩).text =
    ['[', '\n', ' ', '{', 'k', ':', '\n', 'v', ' ', '}', ' ', ',', '[', ']', ']'] :=
  rfl

end Flow

end LosslessYaml
