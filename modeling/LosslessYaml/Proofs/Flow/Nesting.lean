import LosslessYaml.Proofs.Schema.Flow
import LosslessYaml.Proofs.Token.Edge

namespace LosslessYaml

namespace Kind

def isBracket (k : Kind) : Bool := k.isFlowOpener || k.isFlowCloser

theorem isBracket_eq_false {k : Kind} (ho : k.isFlowOpener = false) (hc : k.isFlowCloser = false) :
    k.isBracket = false := by
  rw [isBracket, ho, hc]
  rfl

theorem isFlowCloser_eq_false {k : Kind} (h : k.isBracket = false) : k.isFlowCloser = false :=
  (Bool.or_eq_false_iff.1 h).2

theorem isBracket_of_isTrivia {k : Kind} (h : k.isTrivia = true) : k.isBracket = false := by
  cases k <;> first | rfl | cases h

end Kind

namespace Token

/-- The number of brackets that are open behind some tokens, `n` being open in front of them. A closing bracket too many
is ignored. -/
def depthAfter (n : Nat) : List Token → Nat
  | [] => n
  | t :: ts =>
    depthAfter (if t.kind.isFlowOpener then n + 1 else if t.kind.isFlowCloser then n - 1 else n) ts

@[simp] theorem depthAfter_nil (n : Nat) : depthAfter n [] = n := rfl

theorem depthAfter_cons_opener {t : Token} (h : t.kind.isFlowOpener = true) (n : Nat) (ts : List Token) :
    depthAfter n (t :: ts) = depthAfter (n + 1) ts := by
  rw [depthAfter, if_pos h]

theorem depthAfter_append (n : Nat) (ts us : List Token) :
    depthAfter n (ts ++ us) = depthAfter (depthAfter n ts) us := by
  induction ts generalizing n with
  | nil => rfl
  | cons t ts ih => rw [List.cons_append, depthAfter, depthAfter, ih]

def Nested (ts : List Token) : Prop := ∀ us, us <+: ts → ∀ n, n ≤ depthAfter n us

section Nested

variable {ts us : List Token}

theorem nested_nil : Nested [] := by
  intro us h n
  rw [List.prefix_nil.1 h, depthAfter_nil]

theorem nested_singleton {t : Token} (h : t.kind.isFlowCloser = false) : Nested [t] := by
  intro us hus n
  rcases List.prefix_cons_iff.1 hus with rfl | ⟨v, rfl, hv⟩
  · exact Nat.le_refl n
  · rw [List.prefix_nil.1 hv, depthAfter, h, depthAfter_nil]
    split
    · exact Nat.le_succ n
    · exact Nat.le_refl n

theorem Nested.append (ht : Nested ts) (hu : Nested us) : Nested (ts ++ us) := by
  intro vs hvs n
  rcases List.prefix_or_prefix_of_prefix hvs (List.prefix_append ts us) with h | ⟨w, rfl⟩
  · exact ht vs h n
  · rw [depthAfter_append]
    exact Nat.le_trans (ht ts (List.prefix_refl ts) n) (hu w ((List.prefix_append_right_inj ts).1 hvs) _)

theorem Nested.enclose {o : Token} (ho : o.kind.isFlowOpener = true) (h : Nested ts) (c : Token) :
    Nested (o :: ts ++ [c]) := by
  intro us hus n
  rcases List.prefix_concat_iff.1 hus with rfl | hus
  · have hts := h ts (List.prefix_refl ts) (n + 1)
    rw [depthAfter_append, depthAfter_cons_opener ho, depthAfter, depthAfter_nil]
    split
    · omega
    · split <;> omega
  · rcases List.prefix_cons_iff.1 hus with rfl | ⟨v, rfl, hv⟩
    · exact Nat.le_refl n
    · rw [depthAfter_cons_opener ho]
      exact Nat.le_trans (Nat.le_succ n) (h v hv (n + 1))

end Nested

def EndsBare (ts : List Token) : Prop := ∃ us t, ts = us ++ [t] ∧ t.kind.isTrivia = false

theorem endsBare_singleton {t : Token} (h : t.kind.isTrivia = false) : EndsBare [t] := ⟨[], t, rfl, h⟩

theorem EndsBare.behind {ts : List Token} (h : EndsBare ts) (us : List Token) : EndsBare (us ++ ts) := by
  obtain ⟨vs, t, rfl, ht⟩ := h
  exact ⟨us ++ vs, t, (List.append_assoc us vs [t]).symm, ht⟩

/-- The tokens of the last line are not all blank. -/
def EndsFilled (ts : List Token) : Prop :=
  ∃ us t vs, ts = us ++ t :: vs ∧ t.kind ≠ .whitespace ∧ ∀ v ∈ t :: vs, v.kind ≠ .newline

theorem EndsFilled.behind {ts : List Token} (h : EndsFilled ts) (us : List Token) : EndsFilled (us ++ ts) := by
  obtain ⟨vs, t, ws, rfl, ht, hws⟩ := h
  exact ⟨us ++ vs, t, ws, (List.append_assoc us vs _).symm, ht, hws⟩

theorem EndsFilled.ne_nil {ts : List Token} (h : EndsFilled ts) : ts ≠ [] := by
  obtain ⟨us, t, vs, rfl, -⟩ := h
  exact List.append_ne_nil_of_right_ne_nil us (List.cons_ne_nil t vs)

theorem EndsBare.filled {ts : List Token} (h : EndsBare ts) : EndsFilled ts := by
  obtain ⟨us, t, rfl, ht⟩ := h
  refine ⟨us, t, [], rfl, fun hw => ?_, fun v hv hn => ?_⟩
  · rw [hw] at ht
    cases ht
  · rw [List.mem_singleton.1 hv] at hn
    rw [hn] at ht
    cases ht

end Token

namespace Rule

theorem trees_loop_along {A : List Char → List Placed → Prop} {F : List Char → List Tree → Prop}
    {test : List Placed → Bool} {r : Rule} (hn : ∀ u, F u [])
    (ha : ∀ u cs ds, F u cs → F (u ++ Tree.forestText cs) ds → F u (cs ++ ds))
    (hA : ∀ u ts, A u ts → A (u ++ Tree.forestText (r ts).trees) (r ts).rest)
    (hr : ∀ u ts, A u ts → test ts = true → F u (r ts).trees) (u : List Char) (ts : List Placed) (h : A u ts) :
    F u (loop test r ts).trees := by
  fun_induction Rule.loop test r ts generalizing u with
  | case1 ts ht p _ q ih => exact ha u _ _ (hr u ts h ht) (ih _ (hA u ts h))
  | case2 ts ht p _ => exact hr u ts h ht
  | case3 ts _ => exact hn u

end Rule

namespace Grammar

open Rule LosslessYaml.Tree
open Token (Nested EndsBare)

def flowKinds : List Kind := [.literal, .quotedLiteral, .flowSequence, .flowMapping, .pair, .key]

def FlowPart (t : Tree) : Prop := t.isNode = true → t.isNodeOf flowKinds = true ∧ EndsBare t.leaves

/-- A forest between two brackets. -/
structure Held (cs : List Tree) : Prop where
  parts : ∀ u, EveryOf (fun _ => FlowPart) u cs
  nested : Nested (leavesOf cs)
  ends : cs = [] ∨ EndsBare (leavesOf cs)

section Held

variable {cs ds : List Tree}

theorem held_nil : Held [] := ⟨fun _ => trivial, Token.nested_nil, .inl rfl⟩

theorem Held.append (hc : Held cs) (hd : Held ds) : Held (cs ++ ds) := by
  refine ⟨fun u => everyOf_append.2 ⟨hc.parts u, hd.parts _⟩, ?_, ?_⟩
  · rw [leavesOf_append]
    exact hc.nested.append hd.nested
  · rcases hd.ends with rfl | h
    · rw [List.append_nil]
      exact hc.ends
    · rw [leavesOf_append]
      exact .inr (h.behind _)

def Mild (cs : List Tree) : Prop := ∀ t ∈ cs, ∃ x : Token, t = .leaf x ∧ x.kind.isFlowCloser = false

theorem Mild.parts (h : Mild cs) (u : List Char) : EveryOf (fun _ => FlowPart) u cs := by
  refine everyOf_leaves (fun _ _ => nofun) (fun t ht => ?_) u
  obtain ⟨x, rfl, -⟩ := h t ht
  rfl

theorem Mild.nested (h : Mild cs) : Nested (leavesOf cs) := by
  induction cs with
  | nil => exact Token.nested_nil
  | cons t cs ih =>
    obtain ⟨⟨x, rfl, hx⟩, hcs⟩ := List.forall_mem_cons.1 h
    exact (Token.nested_singleton hx).append (ih hcs)

theorem Mild.held (h : Mild cs) (he : cs = [] ∨ EndsBare (leavesOf cs)) : Held cs := ⟨h.parts, h.nested, he⟩

theorem Mild.before (hc : Mild cs) (hd : Held ds) (hne : ds ≠ []) : Held (cs ++ ds) := by
  refine ⟨fun u => everyOf_append.2 ⟨hc.parts u, hd.parts _⟩, ?_, ?_⟩
  · rw [leavesOf_append]
    exact hc.nested.append hd.nested
  · rw [leavesOf_append]
    exact .inr ((hd.ends.resolve_left hne).behind _)

theorem mild_singleton {t : Token} (h : t.kind.isFlowCloser = false) : Mild [.leaf t] := by
  intro x hx
  exact ⟨t, List.mem_singleton.1 hx, h⟩

theorem held_leaf {t : Token} (hc : t.kind.isFlowCloser = false) (ht : t.kind.isTrivia = false) : Held [.leaf t] :=
  (mild_singleton hc).held (.inr (Token.endsBare_singleton ht))

theorem held_node {k : Kind} (hk : k ∈ flowKinds) (hp : ∀ u, EveryOf (fun _ => FlowPart) u cs)
    (hn : Nested (leavesOf cs)) (he : EndsBare (leavesOf cs)) : Held [.node k cs] := by
  have hleaves : leavesOf [.node k cs] = leavesOf cs := by simp [leavesOf, leaves]
  refine ⟨fun u => ⟨⟨fun _ => ⟨?_, ?_⟩, hp u⟩, trivial⟩, ?_, ?_⟩
  · simp [isNodeOf, hk]
  · rw [leaves]
    exact he
  · rw [hleaves]
    exact hn
  · rw [hleaves]
    exact .inr he

theorem Held.node {k : Kind} (hk : k ∈ flowKinds) (h : Held cs) (hne : cs ≠ []) : Held [.node k cs] :=
  held_node hk h.parts h.nested (h.ends.resolve_left hne)

end Held

def Spread (ts : List Placed) : Prop := (ts.map Placed.token).IsChain Token.Apart

theorem Spread.rest {r : Rule} {ts : List Placed} (hl : Lossless r) (h : Spread ts) : Spread (r ts).rest := by
  obtain ⟨us, hus, -⟩ := hl ts
  rw [Spread, hus, List.map_append] at h
  exact h.right_of_append

structure Fresh (ts : List Placed) : Prop where
  bare : (next ts).isTrivia = false
  opens : (next ts).isFlowCloser = false
  nonempty : ts ≠ []

theorem fresh_of_opener {b : Bracket} {ts : List Placed} (h : next ts = b.opener) : Fresh ts := by
  refine ⟨?_, ?_, ne_nil_of_next h (by cases b <;> decide)⟩ <;> rw [h] <;> cases b <;> rfl

theorem mild_trivia (ts : List Placed) : Mild (trivia ts).trees := by
  intro t ht
  have h := isTrivia_of_mem_trivia ts t ht
  cases t with
  | node k cs => cases h
  | leaf x => exact ⟨x, rfl, Kind.isFlowCloser_eq_false (Kind.isBracket_of_isTrivia h)⟩

section Plain

variable {ts : List Placed}

theorem isBracket_of_endsFlowPlain {t : Placed} (h : endsFlowPlain (pastBlank (t :: ts)) = false) :
    t.kind.isBracket = false := by
  cases hk : t.kind <;> first | rfl | simp [pastBlank, hk, endsFlowPlain] at h

theorem mild_flowRest (ts : List Placed) : Mild (upTo (fun ts => endsFlowPlain (pastBlank ts)) ts).trees := by
  induction ts with
  | nil => exact List.forall_mem_nil _
  | cons t ts ih =>
    rw [upTo]
    split
    · exact List.forall_mem_nil _
    · next h =>
      exact List.forall_mem_cons.2 ⟨⟨_, rfl, Kind.isFlowCloser_eq_false (isBracket_of_endsFlowPlain (Bool.not_eq_true _ ▸ h))⟩, ih⟩

theorem stop_of_trees_upTo {stop : List Placed → Bool} (h : (upTo stop ts).trees = []) :
    ts = [] ∨ stop ts = true := by
  cases ts with
  | nil => exact .inl rfl
  | cons t ts =>
    rw [upTo] at h
    split at h
    · next hs => exact .inr hs
    · cases h

theorem isTrivia_of_pastBlank {test : List Placed → Bool}
    (ht : ∀ us, next us ∈ [Kind.newline, .eof, .comment] → test us = true) {t : Placed} (hs : Spread (t :: ts))
    (h : test (pastBlank (t :: ts)) = false) (hstop : ts = [] ∨ test (pastBlank ts) = true) :
    t.kind.isTrivia = false := by
  by_cases hw : t.kind = .whitespace
  · -- a blank would have to be followed by something that goes on
    rw [pastBlank, if_pos hw] at h
    exfalso
    cases ts with
    | nil =>
      rw [ht [] (by decide)] at h
      cases h
    | cons u us =>
      have hu : u.kind ≠ .whitespace := (List.isChain_cons_cons.1 hs).1 hw
      rw [pastBlank, if_neg hu] at hstop
      rw [hstop.resolve_left (List.cons_ne_nil u us)] at h
      cases h
  · rw [pastBlank, if_neg hw] at h
    have hk : t.kind ∉ [Kind.newline, .eof, .comment] := fun hk => by
      rw [ht (t :: ts) hk] at h
      cases h
    cases hkind : t.kind <;> first | rfl | simp [hkind] at hk hw

theorem endsBare_upTo {stop : List Placed → Bool}
    (h : ∀ t us, Spread (t :: us) → stop (t :: us) = false → us = [] ∨ stop us = true → t.kind.isTrivia = false)
    (hs : Spread ts) : (upTo stop ts).trees = [] ∨ EndsBare (leavesOf (upTo stop ts).trees) := by
  induction ts with
  | nil => exact .inl rfl
  | cons t ts ih =>
    rw [upTo]
    split
    · exact .inl rfl
    · next hstop =>
      right
      dsimp only
      rcases ih hs.tail with hnil | hbare
      · rw [hnil, leavesOf, leaves, leavesOf, List.append_nil]
        exact Token.endsBare_singleton (h t ts hs (Bool.not_eq_true _ ▸ hstop) (stop_of_trees_upTo hnil))
      · exact hbare.behind _

theorem ends_flowRest (hs : Spread ts) :
    (upTo (fun ts => endsFlowPlain (pastBlank ts)) ts).trees = [] ∨
      EndsBare (leavesOf (upTo (fun ts => endsFlowPlain (pastBlank ts)) ts).trees) := by
  refine endsBare_upTo (fun _ _ => isTrivia_of_pastBlank fun us hus => ?_) hs
  simp only [List.mem_cons, List.not_mem_nil, or_false] at hus
  rcases hus with h | h | h <;> rw [endsFlowPlain, h]

theorem held_flowPlain (hs : Spread ts) (hf : Fresh ts) : Held (flowPlain ts).trees := by
  cases ts with
  | nil => exact absurd rfl hf.nonempty
  | cons t ts =>
    have hrest := (mild_flowRest ts).held (ends_flowRest hs.tail)
    exact Held.node (by decide) ((held_leaf hf.opens hf.bare).append hrest) (List.cons_ne_nil _ _)

end Plain

section Flow

variable {ts : List Placed}

theorem fresh_pastTrivia (hne : pastTrivia ts ≠ []) (hc : (next (pastTrivia ts)).isFlowCloser = false) :
    Fresh (pastTrivia ts) := by
  refine ⟨?_, hc, hne⟩
  have h := List.head_dropWhile_not (p := fun t : Placed => t.kind.isTrivia) (l := ts) hne
  cases hp : pastTrivia ts with
  | nil => exact absurd hp hne
  | cons t us =>
    rw [pastTrivia] at hp
    simpa [hp] using h

theorem held_quotedLiteral (h : next ts = .quoted) : Held (quotedLiteral ts).trees := by
  obtain ⟨t, ht, hk⟩ := token_trees h (by decide)
  rw [quotedLiteral, Rule.within, ht]
  exact Held.node (by decide) (held_leaf (by rw [hk]; rfl) (by rw [hk]; rfl)) (List.cons_ne_nil _ _)

theorem held_tokens_colonLength {adjacent : Bool} {n : Nat} (h : colonLength? adjacent ts = some n) :
    Held (tokens n ts).trees ∧ (tokens n ts).trees ≠ [] := by
  obtain ⟨c, hc, htrees⟩ := tokens_colonLength h
  have hcolon : Held [.leaf c] := held_leaf (by rw [hc]; rfl) (by rw [hc]; rfl)
  rcases htrees with heq | ⟨w, hw, heq⟩
  · rw [heq]
    exact ⟨hcolon, List.cons_ne_nil _ _⟩
  · have hblank : Mild [.leaf w] := mild_singleton (congrArg Kind.isFlowCloser hw)
    rw [heq]
    exact ⟨hblank.before hcolon (List.cons_ne_nil _ _), List.cons_ne_nil _ _⟩

theorem fresh_of_atFlowValueEnd (h : atFlowValueEnd (pastTrivia ts) = false) : Fresh (pastTrivia ts) := by
  simp only [atFlowValueEnd, Bool.or_eq_false_iff] at h
  have hnext := h.2
  apply fresh_pastTrivia
  · intro hnil
    rw [hnil] at hnext
    cases hnext
  · cases hk : next (pastTrivia ts) <;> first | rfl | simp [hk] at hnext

variable {node : Rule} (hl : Lossless node)
    (hn : ∀ ts, Spread ts → Fresh ts → Held (node ts).trees ∧ (node ts).trees ≠ [])
include hn

theorem held_trivia_then (hs : Spread ts) (hf : Fresh (pastTrivia ts)) :
    Held (trivia.andThen node ts).trees ∧ (trivia.andThen node ts).trees ≠ [] := by
  obtain ⟨hheld, hne⟩ := hn (pastTrivia ts) (rest_trivia ts ▸ hs.rest lossless_trivia) hf
  rw [← rest_trivia] at hheld hne
  exact ⟨(mild_trivia ts).before hheld hne, List.append_ne_nil_of_right_ne_nil _ hne⟩

theorem held_flowValue (hs : Spread ts) : Held (flowValue node ts).trees :=
  trees_when held_nil fun h => (held_trivia_then hn hs (fresh_of_atFlowValueEnd (by simpa using h))).1

theorem held_flowPairTail (adjacent : Bool) (hs : Spread ts) :
    Held (flowPairTail node (colonLength? adjacent ts) ts).trees ∧
      (colonLength? adjacent ts ≠ none → (flowPairTail node (colonLength? adjacent ts) ts).trees ≠ []) := by
  cases h : colonLength? adjacent ts with
  | none => exact ⟨held_nil, fun h => absurd rfl h⟩
  | some n =>
    obtain ⟨hheld, hne⟩ := held_tokens_colonLength h
    exact ⟨hheld.append (held_flowValue hn (hs.rest (lossless_tokens n))),
      fun _ => List.append_ne_nil_of_left_ne_nil hne _⟩

include hl

theorem held_flowEntry (b : Bracket) (hs : Spread ts) (hf : Fresh ts) :
    Held (flowEntry node b ts).trees ∧ (flowEntry node b ts).trees ≠ [] := by
  obtain ⟨hkey, hne⟩ := hn ts hs hf
  rw [flowEntry]
  split
  · next hc =>
    obtain ⟨htail, hsome⟩ := held_flowPairTail hn false hs
    exact ⟨Held.node (by decide) htail (hsome (by simp [colonLength?, hc])), List.cons_ne_nil _ _⟩
  · dsimp only
    split
    · exact ⟨hkey, hne⟩
    · have htail := (held_flowPairTail hn (endsItself (next ts)) (hs.rest hl)).1
      exact ⟨Held.node (by decide) ((Held.node (by decide) hkey hne).append htail) (List.cons_ne_nil _ _),
        List.cons_ne_nil _ _⟩

theorem held_flowEntries (b : Bracket) (hs : Spread ts) : Held (flowEntries node b ts).trees := by
  have hpass : Lossless (trivia.andThen (branch (fun ts => next ts = .comma) token (flowEntry node b))) :=
    lossless_trivia.andThen (lossless_token.branch (lossless_flowEntry hl b) _)
  refine trees_loop_along (A := fun _ => Spread) (F := fun _ => Held) (fun _ => held_nil) (fun _ _ _ => Held.append)
    (fun _ _ h => h.rest hpass) ?_ [] ts hs
  intro _ us hus hc
  simp only [flowContinues, contentAhead, Bool.and_eq_true, Bool.not_eq_true', List.isEmpty_eq_false_iff] at hc
  refine (held_trivia_then (fun vs hvs hf => ?_) hus (fresh_pastTrivia hc.1.1 hc.2)).1
  rw [branch]
  split
  · next hcomma =>
    obtain ⟨t, ht, hk⟩ := token_trees (k := .comma) (of_decide_eq_true hcomma) (by decide)
    rw [ht]
    exact ⟨held_leaf (by rw [hk]; rfl) (by rw [hk]; rfl), List.cons_ne_nil _ _⟩
  · exact held_flowEntry hl hn b hvs hf

theorem exists_flowCollectionOf {b : Bracket} (hs : Spread ts) (hb : next ts = b.opener) :
    ∃ (o : Token) (body closing : List Tree),
      (flowCollectionOf node b ts).trees = [.node b.collection (.leaf o :: (body ++ closing))] ∧
        o.kind = b.opener ∧ (∀ u, EveryOf (fun _ => FlowPart) u body) ∧ Nested (leavesOf body) ∧
        (closing = [] ∧ (body = [] ∨ EndsBare (leavesOf body)) ∨
          ∃ c : Token, closing = [.leaf c] ∧ c.kind = b.closer) := by
  obtain ⟨o, ho, hk⟩ := token_trees hb (by cases b <;> decide)
  have hentries := held_flowEntries hl hn b (hs.rest lossless_token)
  rw [flowCollectionOf, Rule.within, Rule.andThen, ho, flowBody_eq, Rule.andThen]
  rcases flowClose_trees b (flowEntries node b (token ts).rest).rest with hnil | ⟨c, hc, hclose⟩
  · refine ⟨o, _, [], ?_, hk, hentries.parts, hentries.nested, .inl ⟨rfl, hentries.ends⟩⟩
    rw [hnil]
    rfl
  · have hmild := mild_trivia (flowEntries node b (token ts).rest).rest
    refine ⟨o, _, [.leaf c], ?_, hk, fun u => everyOf_append.2 ⟨hentries.parts u, hmild.parts _⟩, ?_,
      .inr ⟨c, rfl, hc⟩⟩
    · rw [hclose, List.append_assoc]
      rfl
    · rw [leavesOf_append]
      exact hentries.nested.append hmild.nested

theorem held_flowCollectionOf {b : Bracket} (hs : Spread ts) (hb : next ts = b.opener) :
    Held (flowCollectionOf node b ts).trees := by
  obtain ⟨o, body, closing, htrees, ho, hparts, hnested, hclose⟩ := exists_flowCollectionOf hl hn hs hb
  have hopens : o.kind.isFlowOpener = true ∧ o.kind.isFlowCloser = false ∧ o.kind.isTrivia = false := by
    rw [ho]
    cases b <;> decide
  have hk : b.collection ∈ flowKinds := by cases b <;> decide
  rw [htrees]
  rcases hclose with ⟨rfl, hends⟩ | ⟨c, rfl, hc⟩
  · have hbody : Held body := ⟨hparts, hnested, hends⟩
    rw [List.append_nil]
    exact Held.node hk ((held_leaf hopens.2.1 hopens.2.2).append hbody) (List.cons_ne_nil _ _)
  · have hleaves : leavesOf (.leaf o :: (body ++ [.leaf c])) = o :: leavesOf body ++ [c] := by
      simp [leavesOf, leaves]
    have hbare : c.kind.isTrivia = false := by
      rw [hc]
      cases b <;> decide
    refine held_node hk (fun u => ⟨nofun, everyOf_append.2 ⟨hparts _, nofun, trivial⟩⟩) ?_ ?_
    · rw [hleaves]
      exact hnested.enclose hopens.1 c
    · rw [hleaves]
      exact (Token.endsBare_singleton hbare).behind _

theorem held_flowNodeOf (hs : Spread ts) (hf : Fresh ts) :
    Held (flowNodeOf node ts).trees ∧ (flowNodeOf node ts).trees ≠ [] := by
  rw [flowNodeOf]
  split
  · next h => exact ⟨held_flowCollectionOf hl hn (b := .square) hs h, List.cons_ne_nil _ _⟩
  · next h => exact ⟨held_flowCollectionOf hl hn (b := .curly) hs h, List.cons_ne_nil _ _⟩
  · next h => exact ⟨held_quotedLiteral h, List.cons_ne_nil _ _⟩
  · exact ⟨held_flowPlain hs hf, List.cons_ne_nil _ _⟩

end Flow

theorem held_flowNode {ts : List Placed} (hs : Spread ts) (hf : Fresh ts) :
    Held (flowNode ts).trees ∧ (flowNode ts).trees ≠ [] :=
  flowNode_induct (P := fun ts p => Spread ts → Fresh ts → Held p.trees ∧ p.trees ≠ []) lossless_flowPlain
    (fun _ hs hf => ⟨held_flowPlain hs hf, List.cons_ne_nil _ _⟩)
    (fun _ hl hn _ hs hf => held_flowNodeOf hl hn hs hf) ts hs hf

theorem exists_flowNode {b : Bracket} {ts : List Placed} (hs : Spread ts) (hb : next ts = b.opener) :
    ∃ (o : Token) (body closing : List Tree),
      (flowNode ts).trees = [.node b.collection (.leaf o :: (body ++ closing))] ∧ o.kind = b.opener ∧
        Nested (leavesOf body) ∧ (closing = [] ∨ ∃ c : Token, closing = [.leaf c] ∧ c.kind = b.closer) := by
  have hl : Lossless (below ts.length flowNode flowPlain) :=
    lossless_below (fun us _ => lossless_flowNode us) lossless_flowPlain
  have hn (us : List Placed) (hus : Spread us) (hf : Fresh us) :
      Held (below ts.length flowNode flowPlain us).trees ∧ (below ts.length flowNode flowPlain us).trees ≠ [] := by
    rw [below]
    split
    · exact held_flowNode hus hf
    · exact ⟨held_flowPlain hus hf, List.cons_ne_nil _ _⟩
  have heq : flowNode ts = flowCollectionOf (below ts.length flowNode flowPlain) b ts := by
    rw [flowNode_eq flowPlain, flowNodeOf, hb]
    cases b <;> rfl
  obtain ⟨o, body, closing, htrees, ho, -, hnested, hclose⟩ := exists_flowCollectionOf hl hn hs hb
  exact ⟨o, body, closing, heq ▸ htrees, ho, hnested, hclose.imp And.left id⟩

end Grammar

end LosslessYaml
