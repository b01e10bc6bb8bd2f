import LosslessYaml.Proofs.Boundary.Block
import LosslessYaml.Proofs.Layout.Line

namespace LosslessYaml

namespace Rule

/-- A rule builds the trees `cs` and leaves `us`. -/
def Gives (r : Rule) (ts : List Placed) (cs : List Tree) (us : List Placed) : Prop := r ts = ⟨cs, us⟩

section Gives

variable {r s : Rule} {ts us vs : List Placed} {cs ds : List Tree} {test : List Placed → Bool}

theorem gives_skip : Gives skip ts [] ts := rfl

theorem gives_token (t : Placed) : Gives token (t :: ts) [.leaf t.token] ts := rfl

theorem Gives.andThen (hr : Gives r ts cs us) (hs : Gives s us ds vs) :
    Gives (r.andThen s) ts (cs ++ ds) vs := by
  rw [Gives] at hr hs ⊢
  rw [Rule.andThen, hr, hs]

theorem Gives.andThen_nil (hr : Gives r ts cs us) (hs : Gives s us [] vs) : Gives (r.andThen s) ts cs vs := by
  have h := hr.andThen hs
  rwa [List.append_nil] at h

theorem Gives.within (hr : Gives r ts cs us) (k : Kind) : Gives (r.within k) ts [.node k cs] us := by
  rw [Gives] at hr ⊢
  rw [Rule.within, hr]

theorem Gives.branch (hr : Gives r ts cs us) (ht : test ts = true) (s : Rule) :
    Gives (branch test r s) ts cs us :=
  (if_pos ht).trans hr

theorem Gives.branch_not (hs : Gives s ts cs us) (ht : test ts = false) (r : Rule) :
    Gives (Rule.branch test r s) ts cs us :=
  (if_neg (by rw [ht]; exact Bool.false_ne_true)).trans hs

theorem Gives.when (hr : Gives r ts cs us) (ht : test ts = true) : Gives (when test r) ts cs us :=
  hr.branch ht skip

theorem gives_when_not (ht : test ts = false) (r : Rule) : Gives (Rule.when test r) ts [] ts :=
  gives_skip.branch_not ht r

theorem Gives.loop (hr : Gives (r.andThen (loop test r)) ts cs us) (ha : Advances test r)
    (ht : test ts = true) : Gives (Rule.loop test r) ts cs us :=
  (loop_of_takes ht (ha ts ht)).trans hr

theorem gives_loop_not (ht : test ts = false) (r : Rule) : Gives (Rule.loop test r) ts [] ts :=
  loop_of_not ht r

theorem gives_upTo_not (ht : ts = [] ∨ test ts = true) : Gives (upTo test) ts [] ts := by
  rcases ht with rfl | ht
  · rfl
  · cases ts with
    | nil => rfl
    | cons t ts => rw [Gives, upTo, if_pos ht]

theorem Gives.upTo {t : Placed} (h : Gives (upTo test) ts cs us) (ht : test (t :: ts) = false) :
    Gives (Rule.upTo test) (t :: ts) (.leaf t.token :: cs) us := by
  rw [Gives] at h ⊢
  rw [Rule.upTo, if_neg (by rw [ht]; exact Bool.false_ne_true), h]

end Gives

end Rule

namespace Grammar

open Rule

variable {t u b : Placed} {ts us vs : List Placed} {cs ds : List Tree} {m col : Nat}

section Words

theorem pastTrivia_dropWhile (ts : List Placed) :
    pastTrivia (ts.dropWhile (isLineGap ·.kind)) = pastTrivia ts := by
  induction ts with
  | nil => rfl
  | cons t ts ih =>
    cases hg : isLineGap t.kind with
    | false => simp [hg]
    | true =>
      have ht : t.kind.isTrivia = true := by
        revert hg
        cases t.kind <;> simp [isLineGap, Kind.isTrivia]
      simp only [List.dropWhile_cons, hg, if_true, ih]
      simp [pastTrivia, ht]

theorem plainContinues_of_pastTrivia (h : pastTrivia ts = [] ∨ column (pastTrivia ts) < m) :
    plainContinues m ts = false := by
  rw [← pastTrivia_dropWhile] at h
  cases hp : plainContinues m ts with
  | false => rfl
  | true =>
    simp only [plainContinues, Bool.and_eq_true, decide_eq_true_eq] at hp
    obtain ⟨⟨⟨⟨⟨-, heof⟩, hcomment⟩, hcol⟩, -⟩, -⟩ := hp
    cases hd : ts.dropWhile (isLineGap ·.kind) with
    | nil => simp [hd] at heof
    | cons u us =>
      have hu := List.head_dropWhile_not (p := (isLineGap ·.kind)) (l := ts) (by simp [hd])
      simp only [hd, List.head_cons] at hu
      rw [hd] at h hcol hcomment
      have ht : (next (u :: us)).isTrivia = false := by
        rw [next_cons] at hcomment ⊢
        revert hu hcomment
        cases u.kind <;> simp [isLineGap, Kind.isTrivia]
      rw [pastTrivia_of_not_isTrivia ht] at h
      rcases h with h | h
      · cases h
      · omega

structure IsWord (t : Placed) : Prop where
  kind : t.kind = .text
  initial : ∀ c ∈ t.text.head?, c.isAlphanum = true

theorem IsWord.initial_ne (h : IsWord t) {c : Char} (hc : c.isAlphanum = false) (ts : List Placed) :
    initial? (t :: ts) ≠ some c := by
  intro hi
  rw [h.initial c hi] at hc
  cases hc

theorem IsWord.atProperty (h : IsWord t) (ts : List Placed) : atProperty (t :: ts) = false := by
  simp [Grammar.atProperty, h.initial_ne (c := '&') rfl ts, h.initial_ne (c := '!') rfl ts]

theorem IsWord.atLineEnd (h : IsWord t) (ts : List Placed) : atLineEnd (t :: ts) = false := by
  simp [Grammar.atLineEnd, pastBlank, h.kind]

theorem colonAhead_of_atLineEnd (he : Grammar.atLineEnd ts = true) (n : Nat) :
    colonAhead n ts = false := by
  cases hc : colonAhead n ts with
  | false => rfl
  | true =>
    rw [atLineEnd_of_colonAhead hc] at he
    cases he

theorem atEntry_of_text (hk : t.kind = .text) (hc : colonAhead 0 ts = false) :
    atEntry (t :: ts) = false := by
  simp [atEntry, atQuestion, atIndicator, colonAhead, hk, hc]

end Words

structure IsAnchor (t : Placed) : Prop where
  kind : t.kind = .text
  initial : t.text.head? = some '&'

theorem IsAnchor.atProperty (h : IsAnchor t) (ts : List Placed) : atProperty (t :: ts) = true := by
  simp [Grammar.atProperty, initial?, h.kind, h.initial]

theorem atLineEnd_of_text {b t : Placed} (hb : b.kind = .whitespace) (ht : t.kind = .text)
    (ts : List Placed) : atLineEnd (b :: t :: ts) = false := by
  simp [atLineEnd, pastBlank, hb, ht]

theorem blockNode_unfold (min : Nat) (ts : List Placed) :
    blockNode min ts = blockNodeOf blockNode min ts := by
  rw [blockNode_eq blockNode]
  simp only [below_self]

theorem gives_blank (h : t.kind = .whitespace) : Gives blank (t :: ts) [.leaf t.token] ts :=
  (gives_token t).when (by simp [h])

theorem gives_restOfLine (h : atLineEnd ts = true) : Gives restOfLine ts [] ts :=
  gives_when_not (by simp [h]) _

theorem gives_trivia_not (h : (next ts).isTrivia = false) : Gives trivia ts [] ts :=
  gives_upTo_not (.inr (by rw [h]; rfl))

theorem gives_trivia_cons (ht : t.kind.isTrivia = true) (h : Gives trivia ts cs us) :
    Gives trivia (t :: ts) (.leaf t.token :: cs) us :=
  h.upTo (by rw [next_cons, ht]; rfl)

theorem gives_blockNode (h : Gives (bareNode blockNode m) ts cs us) (hp : atProperty ts = false) :
    Gives (blockNode m) ts cs us :=
  (blockNode_unfold m ts).trans (h.branch_not (by simp [hp]) _)

section Inline

theorem gives_plainScalar (t : Placed) (he : atLineEnd ts = true) (hc : plainContinues m ts = false) :
    Gives (plainScalar m) (t :: ts) [.node .literal [.leaf t.token]] ts := by
  have hr : Gives (plainRest m false) ts [] ts := by
    cases ts with
    | nil => rfl
    | cons u us => exact plainRest_end rfl he hc
  exact ((gives_token t).andThen hr).within _

/-- A node on the line of its head, for an owner in column `col`. -/
structure Inline (col : Nat) (ts : List Placed) (t : Tree) (us : List Placed) : Prop where
  kind : next ts = .text ∨ next ts = .pipe
  atProperty : atProperty ts = false
  colonAhead : colonAhead 0 ts = false
  inlineValue : Gives (inlineValue (col + 1)) ts [t] us
  bareNode : Gives (bareNode blockNode (col + 1)) ts [t] us
  atLineEnd : atLineEnd us = true

theorem gives_inlineValue (h : IsWord t) (he : Grammar.atLineEnd ts = true) (hc : plainContinues m ts = false) :
    Gives (Grammar.inlineValue m) (t :: ts) [.node .literal [.leaf t.token]] ts := by
  refine Eq.trans ?_ (gives_plainScalar t he hc)
  rw [Grammar.inlineValue, next_cons, h.kind]
  simp [atAlias, h.initial_ne (c := '*') rfl ts]

theorem gives_bareNode (h : IsWord t) (he : Grammar.atLineEnd ts = true) (hc : plainContinues m ts = false) :
    Gives (Grammar.bareNode blockNode m) (t :: ts) [.node .literal [.leaf t.token]] ts := by
  refine Eq.trans ?_ (gives_inlineValue h he hc)
  simp [Grammar.bareNode, atDash, atIndicator, atBlockLiteral, h.kind,
    atEntry_of_text h.kind (colonAhead_of_atLineEnd he 0)]

theorem inline_word (h : IsWord t) (he : Grammar.atLineEnd ts = true)
    (hc : plainContinues (col + 1) ts = false) :
    Inline col (t :: ts) (.node .literal [.leaf t.token]) ts where
  kind := .inl h.kind
  atProperty := h.atProperty ts
  colonAhead := by simp [Grammar.colonAhead, h.kind, colonAhead_of_atLineEnd he 0]
  inlineValue := gives_inlineValue h he hc
  bareNode := gives_bareNode h he hc
  atLineEnd := he

theorem inline_literal {p : Placed} {n : Nat} (hp : p.kind = .pipe) (hb : b.kind = .newline)
    (hn : contentLength? (col + 1) none ts = some n) (he : Grammar.atLineEnd (ts.drop n) = true) :
    Inline col (p :: b :: ts)
      (.node .blockLiteral [.node .blockLiteralHeader [.leaf p.token], .leaf b.token,
        .node .blockLiteralContent ((ts.take n).map fun t => .leaf t.token)]) (ts.drop n) := by
  have hheader : Gives (upTo fun ts => next ts = .newline) (p :: b :: ts) [.leaf p.token] (b :: ts) :=
    Gives.upTo (gives_upTo_not (.inr (by simp [hb]))) (by simp [hp])
  have hcontent : Gives (blockLiteralContent (col + 1)) (b :: ts)
      [.leaf b.token, .node .blockLiteralContent ((ts.take n).map fun t => .leaf t.token)] (ts.drop n) := by
    rw [Gives, blockLiteralContent, List.tail_cons, hn]
    rfl
  have hl : Gives (blockLiteral (col + 1)) (p :: b :: ts) _ (ts.drop n) :=
    ((hheader.within .blockLiteralHeader).andThen hcontent).within .blockLiteral
  refine ⟨.inr hp, by simp [Grammar.atProperty, hp], by simp [Grammar.colonAhead, hp, hb], ?_, ?_, he⟩
  · refine Eq.trans ?_ hl
    rw [Grammar.inlineValue, next_cons, hp]
  · refine Eq.trans ?_ hl
    simp [Grammar.bareNode, atDash, atIndicator, atBlockLiteral, hp]

variable {x : Tree}

theorem Inline.atLineEnd_blank (h : Inline col ts x us) (hb : b.kind = .whitespace) :
    Grammar.atLineEnd (b :: ts) = false := by
  rcases h.kind with h | h <;> simp [Grammar.atLineEnd, pastBlank, hb, h]

theorem Inline.not_atLineEnd (h : Inline col ts x us) : Grammar.atLineEnd ts = false := by
  cases ts with
  | nil => rcases h.kind with h | h <;> cases h
  | cons t ts =>
    have hk := h.kind
    rw [next_cons] at hk
    rcases hk with h | h <;> simp [Grammar.atLineEnd, pastBlank, h]

theorem Inline.pair (h : Inline col ts x us) (hb : b.kind = .whitespace) :
    Gives (pairValue blockNode col) (b :: ts) [.leaf b.token, x] us := by
  have hprops : Gives properties ts [] ts := gives_loop_not h.atProperty _
  have hvalue := (h.inlineValue.andThen (gives_restOfLine h.atLineEnd)).branch_not h.not_atLineEnd
    (pairValueBelow blockNode col)
  exact ((gives_blank hb).andThen (hprops.andThen hvalue)).branch_not (h.atLineEnd_blank hb) _

theorem Inline.item (h : Inline col ts x us) (hb : b.kind = .whitespace) :
    Gives (itemValue blockNode col) (b :: ts) [.leaf b.token, x] us := by
  have hnode : Gives (blockNode (col + 1)) ts [x] us :=
    gives_blockNode h.bareNode h.atProperty
  exact ((gives_blank hb).andThen (hnode.andThen (gives_restOfLine h.atLineEnd))).branch_not
    (h.atLineEnd_blank hb) _

end Inline

section Anchors

variable {a : Placed}

theorem gives_property (h : IsAnchor a) (hg : atGap ts = true) :
    Gives property (a :: ts) [.node .anchor [.leaf a.token]] ts := by
  have hi : initial? (a :: ts) = some '&' := h.initial
  have hc : continuesName ts = false := by
    rw [atGap] at hg
    rw [continuesName]
    revert hg
    cases next ts <;> simp
  have hname : Gives name (a :: ts) [.leaf a.token] ts :=
    (gives_token a).andThen (gives_upTo_not (.inr (by rw [hc]; rfl)))
  rw [Gives, property, if_pos hi]
  exact hname.within _

theorem gives_properties_end (h : IsAnchor a) (hg : atGap ts = true) (he : atLineEnd ts = true) :
    Gives properties (a :: ts) [.node .anchor [.leaf a.token]] ts := by
  have hb : Gives (when atInnerBlank token) ts [] ts := gives_when_not (by simp [atInnerBlank, he]) token
  exact Gives.loop (((gives_property h hg).andThen hb).andThen
    (gives_loop_not (atProperty_of_atLineEnd he) _)) advances_properties (h.atProperty ts)

variable {x : Tree}

theorem gives_properties_inline (h : IsAnchor a) (hb : b.kind = .whitespace) (hi : Inline col ts x us) :
    Gives properties (a :: b :: ts) [.node .anchor [.leaf a.token], .leaf b.token] ts := by
  have hinner : atInnerBlank (b :: ts) = true := by
    have hcolon : atColon ts = false := by
      rcases hi.kind with h | h <;> simp [atColon, atIndicator, h]
    simp [atInnerBlank, hb, hi.atLineEnd_blank hb, hcolon]
  exact Gives.loop (((gives_property h (by simp [atGap, hb])).andThen
    ((gives_token b).when hinner)).andThen (gives_loop_not hi.atProperty _)) advances_properties
    (h.atProperty _)

theorem atLineEnd_anchor (h : IsAnchor a) (hb : b.kind = .whitespace) : atLineEnd (b :: a :: ts) = false := by
  simp [atLineEnd, pastBlank, hb, h.kind]

variable {b' : Placed}

theorem Inline.pair_anchor (hi : Inline col ts x us) (h : IsAnchor a) (hb : b.kind = .whitespace)
    (hb' : b'.kind = .whitespace) :
    Gives (pairValue blockNode col) (b :: a :: b' :: ts)
      [.leaf b.token, .node .anchor [.leaf a.token], .leaf b'.token, x] us := by
  have hvalue := (hi.inlineValue.andThen (gives_restOfLine hi.atLineEnd)).branch_not hi.not_atLineEnd
    (pairValueBelow blockNode col)
  exact ((gives_blank hb).andThen ((gives_properties_inline h hb' hi).andThen hvalue)).branch_not
    (atLineEnd_anchor h hb) _

theorem Inline.item_anchor (hi : Inline col ts x us) (h : IsAnchor a) (hb : b.kind = .whitespace)
    (hb' : b'.kind = .whitespace) :
    Gives (itemValue blockNode col) (b :: a :: b' :: ts)
      [.leaf b.token, .node .anchor [.leaf a.token], .leaf b'.token, x] us := by
  have hentry : atEntry (a :: b' :: ts) = false :=
    atEntry_of_text h.kind (by simp [Grammar.colonAhead, hb', hi.colonAhead])
  have hnode : Gives (blockNode (col + 1)) (a :: b' :: ts)
      [.node .anchor [.leaf a.token], .leaf b'.token, x] us :=
    (blockNode_unfold _ _).trans (((gives_properties_inline h hb' hi).andThen
      (hi.bareNode.branch_not hi.not_atLineEnd _)).branch (by simp [h.atProperty, hentry]) _)
  exact ((gives_blank hb).andThen (hnode.andThen (gives_restOfLine hi.atLineEnd))).branch_not
    (atLineEnd_anchor h hb) _

end Anchors

section Entries

variable {node : Nat → Rule}

theorem gives_item (t : Placed) (hv : Gives (itemValue node col) ts cs us) :
    Gives (item node col) (t :: ts) [.node .item (.leaf t.token :: cs)] us :=
  ((gives_token t).andThen hv).within _

theorem gives_key (ht : IsWord t) (hu : u.kind = .colon) (hg : atGap ts = true) :
    Gives key (t :: u :: ts) [.node .key [.node .literal [.leaf t.token]]] (u :: ts) := by
  have hkey : atKeyEnd (t :: u :: ts) = false := by
    simp [atKeyEnd, ht.atLineEnd, pastBlank, atColon, atIndicator, ht.kind]
  have hcolon : atKeyEnd (u :: ts) = true := by
    simp [atKeyEnd, pastBlank, atColon, atIndicator, hu, hg]
  have hword : Gives (upTo atKeyEnd) (t :: u :: ts) [.leaf t.token] (u :: ts) :=
    Gives.upTo (gives_upTo_not (.inr hcolon)) hkey
  have hcontent : Gives keyContent (t :: u :: ts) [.node .literal [.leaf t.token]] (u :: ts) := by
    rw [Gives, keyContent, next_cons, ht.kind]
    exact (hword.within _).when (by simp [hkey])
  have hprops : Gives properties (t :: u :: ts) [] (t :: u :: ts) := gives_loop_not (ht.atProperty _) _
  exact (hprops.andThen (hcontent.andThen (gives_when_not (by simp [hcolon]) _))).within _

theorem gives_pair (ht : IsWord t) (hu : u.kind = .colon) (hg : atGap ts = true)
    (hv : Gives (pairValue node col) ts cs us) :
    Gives (pair node col) (t :: u :: ts)
      [.node .pair (.node .key [.node .literal [.leaf t.token]] :: .leaf u.token :: cs)] us := by
  have hkey : Gives (when (fun ts => next ts ≠ .colon) key) (t :: u :: ts) _ (u :: ts) :=
    (gives_key ht hu hg).when (by simp [ht.kind])
  have hblank : Gives (when (fun ts => next ts = .whitespace && next ts.tail = .colon) token)
      (u :: ts) [] (u :: ts) :=
    gives_when_not (by simp [hu]) token
  have hcolon : Gives (when (fun ts => next ts = .colon) token) (u :: ts) [.leaf u.token] ts :=
    (gives_token u).when (by simp [hu])
  refine ((hkey.andThen (hblank.andThen (hcolon.andThen hv))).branch_not ?_ _).within _
  simp [atQuestion, atIndicator, ht.kind]

end Entries

section Documents

theorem gives_document (ht : (next ts).isTrivia = false) (hc : contentAhead ts = true)
    (h : Gives (blockNode 0) ts cs us) (hu : pastTrivia us = []) : Gives document ts [.node .document cs] us := by
  have hm : atMarker ts = false := by
    simp only [contentAhead, pastTrivia_of_not_isTrivia ht, Bool.and_eq_true, Bool.not_eq_true'] at hc
    exact hc.2
  have hloop : Gives (loop contentAhead (trivia.andThen (blockNode 0))) ts cs us :=
    Gives.loop (((gives_trivia_not ht).andThen h).andThen_nil (gives_loop_not (by simp [contentAhead, hu]) _))
      advances_nodes hc
  have hclose : Gives (when (fun ts => atMarker (pastTrivia ts) &&
      next (pastTrivia ts) = .documentEnd) (trivia.andThen token)) us [] us :=
    gives_when_not (by simp [hu]) _
  exact ((gives_when_not (by simp [hm]) token).andThen (hloop.andThen_nil hclose)).within _

theorem gives_documents {bs : List Tree} (hb : Gives trivia ts bs vs) (ht : (next vs).isTrivia = false)
    (hc : contentAhead vs = true) (h : Gives (blockNode 0) vs cs us) (hu : Gives trivia us ds []) :
    Gives documents ts (bs ++ .node .document cs :: ds) [] := by
  have hne : vs ≠ [] := by
    rintro rfl
    cases hc
  have hpast : pastTrivia us = [] := by
    rw [← rest_trivia us, hu]
  have hloop := (((gives_document ht hc h hpast).andThen hu).andThen_nil (gives_loop_not rfl _)).loop
    advances_documents (by simpa using hne)
  exact hb.andThen hloop

end Documents

end Grammar

end LosslessYaml
