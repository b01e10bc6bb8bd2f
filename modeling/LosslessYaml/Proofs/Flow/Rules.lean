import LosslessYaml.Proofs.Flow.Written
import LosslessYaml.Proofs.Grammar.Separator
import LosslessYaml.Proofs.Writing.Rules

namespace LosslessYaml

namespace Rule

open LosslessYaml.Tree

/-- A rule builds the trees `cs`, all trivia apart, and leaves `us`. -/
def Produces (r : Rule) (ts : List Placed) (cs : List Tree) (us : List Placed) : Prop :=
  ∃ ds, Gives r ts ds us ∧ pruneOf (fun _ => true) ds = cs

section Produces

variable {r s : Rule} {ts us vs : List Placed} {cs ds : List Tree}

theorem Produces.congr (h : Produces r ts cs us) (hr : s ts = r ts) : Produces s ts cs us := by
  obtain ⟨ds, hds, hcs⟩ := h
  exact ⟨ds, hr.trans hds, hcs⟩

theorem Produces.andThen (hr : Produces r ts cs us) (hs : Produces s us ds vs) :
    Produces (r.andThen s) ts (cs ++ ds) vs := by
  obtain ⟨cs', hcs, rfl⟩ := hr
  obtain ⟨ds', hds, rfl⟩ := hs
  exact ⟨cs' ++ ds', hcs.andThen hds, pruneOf_append _ cs' ds'⟩

theorem Produces.within (hr : Produces r ts cs us) (k : Kind) : Produces (r.within k) ts [.node k cs] us := by
  obtain ⟨ds, hds, rfl⟩ := hr
  exact ⟨_, hds.within k, rfl⟩

theorem produces_token {t : Placed} (h : t.kind.isTrivia = false) : Produces token (t :: ts) [.leaf t.token] ts := by
  have ht : (Tree.leaf t.token).isTrivia = false := h
  refine ⟨_, gives_token t, ?_⟩
  rw [pruneOf, ht]
  rfl

end Produces

end Rule

namespace Grammar

open Rule LosslessYaml.Tree

section Rules

variable {t : Placed} {ts us vs : List Placed} {cs : List Tree} {x : Tree} {b : Bracket}

theorem produces_trivia_then {r : Rule} (h : Produces r (pastTrivia ts) cs us) :
    Produces (trivia.andThen r) ts cs us := by
  refine Produces.andThen ⟨(trivia ts).trees, ?_, pruneOf_trivia (isTrivia_of_mem_trivia ts)⟩ h
  rw [Gives, ← rest_trivia]

/-- What may stand behind a value in brackets: the end of the line, a comma or a closing bracket. -/
def Halts (ts : List Placed) : Prop := next (pastBlank ts) ∈ [Kind.newline, .comma, .rbracket, .rbrace]

theorem Halts.endsFlowPlain (h : Halts ts) : endsFlowPlain (pastBlank ts) = true := by
  rw [Grammar.endsFlowPlain]
  simp only [Halts, List.mem_cons, List.not_mem_nil, or_false] at h
  rcases h with h | h | h | h <;> rw [h]

theorem Halts.colonLength? (h : Halts ts) (adjacent : Bool) : colonLength? adjacent ts = none := by
  have hcolon : next (pastBlank ts) ≠ .colon := by
    intro hc
    rw [Halts, hc] at h
    exact absurd h (by decide)
  cases ts with
  | nil => cases adjacent <;> rfl
  | cons t ts =>
    by_cases hw : t.kind = .whitespace
    · rw [pastBlank, if_pos hw] at hcolon
      simp [Grammar.colonLength?, atFlowColon, hw, hcolon]
    · rw [pastBlank, if_neg hw] at hcolon
      simp [Grammar.colonLength?, atFlowColon, hw, show t.kind ≠ .colon from hcolon]

def Begins (ts : List Placed) : Prop := next ts ∈ [Kind.text, .lbracket, .lbrace]

theorem Begins.of_kind {k : Kind} (h : Begins ts) (hk : k ∉ [Kind.text, .lbracket, .lbrace]) : next ts ≠ k := by
  rintro rfl
  exact hk h

theorem Begins.atMarker (h : Begins ts) : atMarker ts = false := by
  simp [Grammar.atMarker, atIndicator, h.of_kind (k := .directiveEnd) (by decide),
    h.of_kind (k := .documentEnd) (by decide)]

theorem Begins.contentAhead (h : Begins (pastTrivia ts)) : contentAhead ts = true := by
  have hne : pastTrivia ts ≠ [] := by
    intro hnil
    rw [hnil] at h
    exact h.of_kind (k := .eof) (by decide) rfl
  simp [Grammar.contentAhead, hne, h.atMarker]

theorem Begins.isFlowCloser (h : Begins ts) : (next ts).isFlowCloser = false := by
  simp only [Begins, List.mem_cons, List.not_mem_nil, or_false] at h
  rcases h with h | h | h <;> rw [h] <;> rfl

theorem Begins.atFlowValueEnd (h : Begins ts) : atFlowValueEnd ts = false := by
  rw [Grammar.atFlowValueEnd, h.atMarker]
  simp only [Begins, List.mem_cons, List.not_mem_nil, or_false] at h
  rcases h with h | h | h <;> rw [h] <;> rfl

theorem produces_word (ht : t.kind = .text) (h : endsFlowPlain (pastBlank ts) = true) :
    Produces flowNode (t :: ts) [.node .literal [.leaf t.token]] ts := by
  have hend : Produces (upTo fun ts => endsFlowPlain (pastBlank ts)) ts [] ts := ⟨[], gives_upTo_not (.inr h), rfl⟩
  refine (((produces_token (by rw [ht]; rfl)).andThen hend).within .literal).congr ?_
  rw [flowNode_unfold, flowNodeOf, next_cons, ht]
  rfl

theorem produces_entry_value (hb : Begins ts) (h : Produces flowNode ts [x] us) (hu : Halts us) :
    Produces (flowEntry flowNode .square) ts [x] us := by
  refine h.congr ?_
  obtain ⟨ds, hds, -⟩ := h
  have hcolon : atFlowColon false ts = false := by
    simp [atFlowColon, hb.of_kind (k := .colon) (by decide)]
  rw [flowEntry, hcolon, hds]
  simp [hu.colonLength?]

theorem atFlowColon_of_atGap {c : Placed} (hc : c.kind = .colon) (hg : atGap ts = true) :
    atFlowColon false (c :: ts) = true := by
  rw [atGap] at hg
  simp only [atFlowColon, next_cons, hc, List.tail_cons, Bool.false_or, decide_true, Bool.true_and]
  revert hg
  cases next ts <;> simp

theorem produces_flowValue (hb : Begins (pastTrivia ts)) (h : Produces flowNode (pastTrivia ts) [x] us) :
    Produces (flowValue flowNode) ts [x] us :=
  (produces_trivia_then h).congr (if_pos (by simp [hb.atFlowValueEnd]))

theorem produces_entry_pair {c : Placed} (ht : t.kind = .text) (hc : c.kind = .colon) (hg : atGap ts = true)
    (hb : Begins (pastTrivia ts)) (h : Produces flowNode (pastTrivia ts) [x] us) :
    Produces (flowEntry flowNode .curly) (t :: c :: ts)
      [.node .pair [.node .key [.node .literal [.leaf t.token]], .leaf c.token, x]] us := by
  have hcolon := atFlowColon_of_atGap hc hg
  have hlength : colonLength? (endsItself (next (t :: c :: ts))) (c :: ts) = some 1 := by
    rw [next_cons, ht, colonLength?]
    exact if_pos hcolon
  have hone : Produces (tokens 1) (c :: ts) [.leaf c.token] ts := by
    refine (produces_token ?_).congr rfl
    rw [hc]
    rfl
  -- the word is read as a node first, up to the colon, and becomes a key because of the colon
  obtain ⟨ks, hks, hkey⟩ : Produces flowNode (t :: c :: ts) [.node .literal [.leaf t.token]] (c :: ts) := by
    refine produces_word ht ?_
    rw [pastBlank, if_neg (by simp [hc]), endsFlowPlain, next_cons, hc]
    exact hcolon
  obtain ⟨ds, hds, htail⟩ := hone.andThen (produces_flowValue hb h)
  refine ⟨[.node .pair (.node .key ks :: ds)], ?_, ?_⟩
  · rw [Gives, flowEntry, if_neg (by simp [atFlowColon, ht]), hks]
    simp only [hlength, Option.isNone_some, Bool.false_and, Bool.false_eq_true, if_false, flowPairTail]
    rw [hds]
  · simp only [pruneOf, prune, isTrivia, hkey, htail]
    rfl

theorem flowContinues_of_closer (h : next (pastTrivia ts) = b.closer) : flowContinues ts = false := by
  rw [flowContinues, h]
  cases b <;> simp [Bracket.closer, Kind.isFlowCloser]

theorem produces_entries_end (h : next (pastTrivia ts) = b.closer) : Produces (flowEntries flowNode b) ts [] ts :=
  ⟨[], gives_loop_not (flowContinues_of_closer h) _, rfl⟩

theorem produces_entries_step (hf : flowContinues ts = true)
    (h : Produces (branch (fun ts => next ts = .comma) token (flowEntry flowNode b)) (pastTrivia ts) [x] us)
    (hrest : Produces (flowEntries flowNode b) us cs vs) : Produces (flowEntries flowNode b) ts (x :: cs) vs :=
  ((produces_trivia_then h).andThen hrest).congr (loop_of_takes hf (advances_flowEntries b ts hf))

theorem produces_entries_entry (hb : Begins (pastTrivia ts))
    (h : Produces (flowEntry flowNode b) (pastTrivia ts) [x] us)
    (hrest : Produces (flowEntries flowNode b) us cs vs) : Produces (flowEntries flowNode b) ts (x :: cs) vs := by
  refine produces_entries_step ?_ (h.congr (if_neg ?_)) hrest
  · rw [flowContinues, hb.contentAhead, hb.isFlowCloser]
    rfl
  · simp [hb.of_kind (k := .comma) (by decide)]

theorem produces_entries_comma (ht : t.kind = .comma) (hp : pastTrivia ts = t :: us)
    (hrest : Produces (flowEntries flowNode b) us cs vs) :
    Produces (flowEntries flowNode b) ts (.leaf t.token :: cs) vs := by
  refine produces_entries_step ?_ ?_ hrest
  · simp [flowContinues, contentAhead, hp, ht, Kind.isFlowCloser, atMarker, atIndicator]
  · rw [hp]
    exact (produces_token (by rw [ht]; rfl)).congr (if_pos (by simp [ht]))

theorem produces_collection {o c : Placed} (ho : o.kind = b.opener) (h : Produces (flowEntries flowNode b) ts cs us)
    (hc : c.kind = b.closer) (hp : pastTrivia us = c :: vs) :
    Produces flowNode (o :: ts) [.node b.collection (.leaf o.token :: (cs ++ [.leaf c.token]))] vs := by
  have htrivia : b.opener.isTrivia = false ∧ b.closer.isTrivia = false := by cases b <;> decide
  have hclose : Produces (flowClose b) us [.leaf c.token] vs := by
    refine Produces.congr (produces_trivia_then ?_) (if_pos (by simp [hp, hc]))
    rw [hp]
    exact produces_token (by rw [hc]; exact htrivia.2)
  exact (((produces_token (by rw [ho]; exact htrivia.1)).andThen (h.andThen hclose)).within b.collection).congr
    (flowNode_of_opener ho)

theorem blockNode_of_opener (hb : next ts = b.opener) (hc : colonAhead 0 ts = false) (min : Nat) :
    blockNode min ts = flowNode ts := by
  rw [blockNode_unfold, blockNodeOf, branch, bareNode, inlineValue]
  cases b <;>
    simp [atProperty, atDash, atBlockLiteral, atEntry, atQuestion, atIndicator, hb, hc, Bracket.opener]

theorem colonAhead_flowNode (hs : Spread ts) (hb : next ts = b.opener) (h : (flowNode ts).rest = []) :
    colonAhead 0 ts = false := by
  -- a collection with nothing behind it is not a key, since the colons of its pairs are in brackets
  cases hc : colonAhead 0 ts with
  | false => rfl
  | true =>
    have hrest := (passes_flowNode hs hb).colonAhead lossless_flowNode hc
    rw [h] at hrest
    cases hrest

end Rules

end Grammar

end LosslessYaml
