import LosslessYaml.Proofs.Grammar.Recursion
import LosslessYaml.Proofs.Tree.Schema

namespace LosslessYaml

namespace Rule

variable {F : List Tree → Prop} {test : List Placed → Bool} {r s : Rule} {ts : List Placed}

theorem trees_branch (hr : test ts = true → F (r ts).trees)
    (hs : test ts = false → F (s ts).trees) :
    F (branch test r s ts).trees := by
  cases h : test ts with
  | true => simpa [branch, h] using hr h
  | false => simpa [branch, h] using hs h

theorem trees_when (hn : F []) (hr : test ts = true → F (r ts).trees) : F (when test r ts).trees :=
  trees_branch hr fun _ => hn

theorem trees_loop (hn : F []) (ha : ∀ cs ds, F cs → F ds → F (cs ++ ds))
    (hr : ∀ ts, test ts = true → F (r ts).trees) (ts : List Placed) : F (loop test r ts).trees := by
  fun_induction Rule.loop test r ts with
  | case1 ts ht p _ q ih => exact ha _ _ (hr ts ht) ih
  | case2 ts ht p _ => exact hr ts ht
  | case3 ts _ => exact hn

def Flat (r : Rule) : Prop := ∀ ts, ∀ t ∈ (r ts).trees, t.isNode = false

theorem flat_token : Flat token := by
  intro ts t h
  cases ts with
  | nil => simp [token] at h
  | cons u us =>
    simp only [token, List.mem_singleton] at h
    rw [h]
    rfl

theorem flat_tokens (n : Nat) : Flat (tokens n) := by
  intro ts t h
  obtain ⟨u, -, rfl⟩ := List.mem_map.1 h
  rfl

theorem flat_upTo (stop : List Placed → Bool) : Flat (upTo stop) := by
  intro ts
  induction ts with
  | nil => simp [upTo]
  | cons u us ih =>
    rw [upTo]
    split
    · simp
    · intro t h
      rcases List.mem_cons.1 h with rfl | h
      · rfl
      · exact ih t h

theorem Flat.andThen (hr : Flat r) (hs : Flat s) : Flat (r.andThen s) := by
  intro ts t h
  rcases List.mem_append.1 h with h | h
  · exact hr ts t h
  · exact hs _ t h

end Rule

namespace Grammar

open Rule Schema LosslessYaml.Tree

theorem flat_name : Flat name := flat_token.andThen (flat_upTo _)

theorem flat_plainRest (min : Nat) (gap : Bool) : Flat (plainRest min gap) := by
  intro ts
  induction ts generalizing gap with
  | nil => simp [plainRest]
  | cons u us ih =>
    have htake (g : Bool) :
        ∀ t ∈ Tree.leaf u.token :: (plainRest min g us).trees, t.isNode = false := by
      intro t h
      rcases List.mem_cons.1 h with rfl | h
      · rfl
      · exact ih g t h
    rw [plainRest]
    split
    · exact htake true
    · split
      · exact htake false
      · split
        · exact htake true
        · simp

theorem isTrivia_of_mem_trivia (ts : List Placed) : ∀ t ∈ (trivia ts).trees, t.isTrivia = true := by
  induction ts with
  | nil => simp [trivia, upTo]
  | cons u us ih =>
    intro t h
    rw [trivia, upTo] at h
    split at h
    · simp at h
    · next hu =>
      rcases List.mem_cons.1 h with rfl | h
      · simpa [isTrivia, Placed.kind] using hu
      · exact ih t h

theorem token_trees {ts : List Placed} {k : Kind} (h : next ts = k) (hk : k ≠ .eof) :
    ∃ t : Token, (token ts).trees = [.leaf t] ∧ t.kind = k := by
  cases ts with
  | nil => exact absurd h.symm hk
  | cons t ts => exact ⟨t.token, rfl, h⟩

section Inline

variable {vs os : List Kind}

theorem fills_triviaRule (ts : List Placed) : Fills vs os 0 0 (trivia ts).trees :=
  fills_trivia (isTrivia_of_mem_trivia ts)

theorem fills_triviaToken {ts : List Placed} {k : Kind} (h : next ts = k) (hk : k.isTrivia = true) :
    Fills vs os 0 0 (token ts).trees := by
  obtain ⟨t, ht, hkind⟩ := token_trees h (by rintro rfl; cases hk)
  rw [ht]
  apply fills_trivia
  simp [isTrivia, hkind, hk]

theorem fills_blank (ts : List Placed) : Fills vs os 0 0 (blank ts).trees :=
  trees_when fills_nil fun h => fills_triviaToken (k := .whitespace) (by simpa using h) rfl

theorem fills_loop {test : List Placed → Bool} {r : Rule}
    (hr : ∀ ts, test ts = true → Fills vs os 0 0 (r ts).trees)
    (ts : List Placed) : Fills vs os 0 0 (loop test r ts).trees :=
  trees_loop fills_nil (fun _ _ hc hd => hc.append hd) hr ts

variable (hv : ∀ k ∈ remarkKinds, k ∉ vs)
include hv

theorem fills_error {r : Rule} (hr : Flat r) (ts : List Placed) :
    Fills vs remarkKinds 0 0 (r.within .error ts).trees :=
  fills_other (by decide) (hv _ (by decide)) (sound_tokens (by decide) (hr ts))

theorem fills_property (ts : List Placed) : Fills vs remarkKinds 0 0 (property ts).trees := by
  have hk : (if initial? ts = some '&' then Kind.anchor else .tag) ∈ remarkKinds := by
    split <;> decide
  refine fills_other hk (hv _ hk) (sound_tokens ?_ (flat_name ts))
  split <;> decide

theorem fills_properties (ts : List Placed) : Fills vs remarkKinds 0 0 (properties ts).trees := by
  apply fills_loop
  intro us _
  have hb (us : List Placed) : Fills vs remarkKinds 0 0 (when atInnerBlank token us).trees := by
    refine trees_when fills_nil fun h => fills_triviaToken (k := .whitespace) ?_ rfl
    simp only [atInnerBlank, Bool.and_eq_true, decide_eq_true_eq] at h
    exact h.1.1
  exact (fills_property hv us).append (hb _)

theorem fills_restOfLine (ts : List Placed) : Fills vs remarkKinds 0 0 (restOfLine ts).trees :=
  trees_when fills_nil fun _ => (fills_blank ts).append (fills_error hv (flat_upTo _) _)

end Inline

def IsNode (ks : List Kind) (cs : List Tree) : Prop :=
  ∃ t, cs = [t] ∧ t.isNodeOf ks = true ∧ Sound [t]

theorem IsNode.fills {ks os : List Kind} {cs : List Tree} (h : IsNode ks cs) :
    Fills ks os 1 0 cs := by
  obtain ⟨t, rfl, hk, hs⟩ := h
  exact fills_value hk hs

theorem IsNode.mono {ks ks' : List Kind} {cs : List Tree} (h : IsNode ks cs)
    (hk : ∀ k ∈ ks, k ∈ ks') :
    IsNode ks' cs := by
  obtain ⟨t, rfl, ht, hs⟩ := h
  refine ⟨t, rfl, ?_, hs⟩
  cases t with
  | leaf t => simp [isNodeOf] at ht
  | node k cs =>
    simp only [isNodeOf, decide_eq_true_eq] at ht ⊢
    exact hk k ht

theorem isNode_literal {r : Rule} (hr : Flat r) (ts : List Placed) :
    IsNode inlineKinds (r.within .literal ts).trees :=
  ⟨_, rfl, by simp [isNodeOf, inlineKinds], sound_tokens (by decide) (hr ts)⟩

theorem isNode_quotedLiteral {ts : List Placed} (h : next ts = .quoted) :
    IsNode inlineKinds (quotedLiteral ts).trees := by
  obtain ⟨t, ht, hk⟩ := token_trees h (by decide)
  refine ⟨_, rfl, by simp [isNodeOf, inlineKinds], ?_⟩
  exact sound_node ⟨.leaf t, ht, by simp [isLeafOf, hk]⟩ (sound_leaves (flat_token ts))

section Flow

theorem isNode_flowPlain (ts : List Placed) : IsNode inlineKinds (flowPlain ts).trees :=
  isNode_literal (flat_token.andThen (flat_upTo _)) ts

theorem next_of_atFlowColon {adjacent : Bool} {ts : List Placed}
    (h : atFlowColon adjacent ts = true) :
    next ts = .colon := by
  simp only [atFlowColon, Bool.and_eq_true, decide_eq_true_eq] at h
  exact h.1

def flowEntries (node : Rule) (b : Bracket) : Rule :=
  loop flowContinues (trivia.andThen (branch (fun ts => next ts = .comma) token (flowEntry node b)))

def flowClose (b : Bracket) : Rule := when (fun ts => next (pastTrivia ts) = b.closer) (trivia.andThen token)

theorem flowBody_eq (node : Rule) (b : Bracket) : flowBody node b = (flowEntries node b).andThen (flowClose b) := rfl

theorem flowClose_trees (b : Bracket) (ts : List Placed) :
    (flowClose b ts).trees = [] ∨
      ∃ c : Token, c.kind = b.closer ∧ (flowClose b ts).trees = (trivia ts).trees ++ [.leaf c] := by
  refine trees_when (F := fun cs => cs = [] ∨ ∃ c : Token, c.kind = b.closer ∧ cs = (trivia ts).trees ++ [.leaf c])
    (.inl rfl) fun h => .inr ?_
  rw [← rest_trivia, decide_eq_true_eq] at h
  obtain ⟨c, hc, hk⟩ := token_trees h (by cases b <;> decide)
  exact ⟨c, hk, congrArg _ hc⟩

theorem tokens_colonLength {adjacent : Bool} {n : Nat} {ts : List Placed}
    (h : colonLength? adjacent ts = some n) :
    ∃ c : Token, c.kind = .colon ∧ ((tokens n ts).trees = [.leaf c] ∨
      ∃ w : Token, w.kind = .whitespace ∧ (tokens n ts).trees = [.leaf w, .leaf c]) := by
  rw [colonLength?] at h
  split at h
  · next hc =>
    cases h
    cases ts with
    | nil => exact absurd (next_of_atFlowColon hc) (by simp)
    | cons t ts => exact ⟨t.token, next_of_atFlowColon hc, .inl rfl⟩
  · split at h
    · next hc =>
      cases h
      simp only [Bool.and_eq_true, decide_eq_true_eq] at hc
      cases ts with
      | nil => exact absurd hc.1 (by simp)
      | cons t ts =>
        cases ts with
        | nil => exact absurd (next_of_atFlowColon hc.2) (by simp)
        | cons u ts => exact ⟨u.token, next_of_atFlowColon hc.2, .inr ⟨t.token, hc.1, rfl⟩⟩
    · cases h

theorem fills_tokens_colonLength {adjacent : Bool} {n : Nat} {ts : List Placed}
    (h : colonLength? adjacent ts = some n) :
    Fills inlineKinds [] 0 1 (tokens n ts).trees := by
  obtain ⟨c, hc, heq | ⟨w, hw, heq⟩⟩ := tokens_colonLength h
  · rw [heq]
    exact fills_colon hc
  · have hblank : Fills inlineKinds [] 0 0 [.leaf w] := fills_trivia (by simp [isTrivia, hw, Kind.isTrivia])
    rw [heq]
    exact hblank.append (fills_colon hc)

variable {node : Rule} (hn : ∀ ts, IsNode inlineKinds (node ts).trees)
include hn

theorem fills_flowPairTail {adjacent : Bool} (ts : List Placed) :
    Fills inlineKinds [] 1 1 (flowPairTail node (colonLength? adjacent ts) ts).trees := by
  cases h : colonLength? adjacent ts with
  | none => exact fills_nil.mono (Nat.zero_le 1) (Nat.zero_le 1)
  | some n =>
    have hv (us : List Placed) : Fills inlineKinds [] 1 0 (flowValue node us).trees :=
      trees_when (fills_nil.mono (Nat.zero_le 1) (Nat.le_refl 0)) fun _ =>
        (fills_triviaRule us).append (hn _).fills
    exact (fills_tokens_colonLength h).append (hv _)

omit hn in
theorem fits_trivia (b : Bracket) (ts : List Placed) : Consists (Inside b) (trivia ts).trees :=
  ⟨fun t h => .inl (isTrivia_of_mem_trivia ts t h), sound_leaves (flat_upTo _ ts)⟩

omit hn in
theorem fits_flowPair {b : Bracket} {keys rest : List Tree}
    (hk : keys = [] ∨ ∃ cs, keys = [.node .key cs] ∧ IsNode inlineKinds cs)
    (hr : Fills inlineKinds [] 1 1 rest) : Consists (Inside b) [.node .pair (keys ++ rest)] := by
  have hs : Sound keys := by
    rcases hk with rfl | ⟨cs, rfl, t, rfl, -, ht⟩
    · exact sound_nil
    · exact sound_node trivial ht
  refine consists_singleton (.inr (.inr (.inr ⟨keys, rest, rfl, ?_, hr.toContent⟩)))
    (sound_node trivial (hs.append hr.sound))
  rcases hk with rfl | ⟨cs, rfl, t, rfl, ht, -⟩
  · exact .inl rfl
  · exact .inr ⟨t, rfl, ht⟩

theorem fits_flowEntry (b : Bracket) (ts : List Placed) :
    Consists (Inside b) (flowEntry node b ts).trees := by
  simp only [flowEntry]
  split
  · exact fits_flowPair (.inl rfl) (fills_flowPairTail hn ts)
  · split
    · next h =>
      simp only [Bool.and_eq_true, decide_eq_true_eq] at h
      obtain ⟨t, ht, hk, hs⟩ := hn ts
      rw [ht]
      exact consists_singleton (.inr (.inr (.inl ⟨h.2, hk⟩))) hs
    · exact fits_flowPair (.inr ⟨_, rfl, hn ts⟩) (fills_flowPairTail hn _)

omit hn in
theorem fits_comma (b : Bracket) {ts : List Placed} (h : next ts = .comma) :
    Consists (Inside b) (token ts).trees := by
  obtain ⟨t, ht, hk⟩ := token_trees h (by decide)
  rw [ht]
  exact consists_singleton (.inr (.inl (by simp [isLeafOf, hk]))) (sound_leaf t)

theorem fits_flowEntries (b : Bracket) (ts : List Placed) : Consists (Inside b) (flowEntries node b ts).trees := by
  apply trees_loop consists_nil fun _ _ => Consists.append
  intro us _
  have he (vs : List Placed) :
      Consists (Inside b) (branch (fun ts => next ts = .comma) token (flowEntry node b) vs).trees :=
    trees_branch (fun h => fits_comma b (by simpa using h)) fun _ => fits_flowEntry hn b vs
  exact (fits_trivia b us).append (he _)

/-- A forest between brackets and the closing bracket, if it is there. -/
def Closes (b : Bracket) (cs : List Tree) : Prop :=
  ∃ body closing, cs = body ++ closing ∧ Consists (Inside b) body ∧
    (closing = [] ∨ ∃ t : Token, closing = [.leaf t] ∧ t.kind = b.closer)

theorem closes_flowBody (b : Bracket) (ts : List Placed) : Closes b (flowBody node b ts).trees := by
  have hentries := fits_flowEntries hn b ts
  rw [flowBody_eq, Rule.andThen]
  rcases flowClose_trees b (flowEntries node b ts).rest with hnil | ⟨c, hk, hc⟩
  · exact ⟨_, [], congrArg _ hnil, hentries, .inl rfl⟩
  · have hfront := hentries.append (fits_trivia b (flowEntries node b ts).rest)
    refine ⟨_, [.leaf c], ?_, hfront, .inr ⟨c, rfl, hk⟩⟩
    rw [hc, List.append_assoc]

theorem isNode_flowCollectionOf {b : Bracket} {ts : List Placed} (h : next ts = b.opener) :
    IsNode inlineKinds (flowCollectionOf node b ts).trees := by
  obtain ⟨t, ht, hk⟩ := token_trees h (by cases b <;> decide)
  obtain ⟨body, closing, hbody, hb, hc⟩ := closes_flowBody hn b (token ts).rest
  have hcs : (token.andThen (flowBody node b) ts).trees = .leaf t :: body ++ closing := by
    simp only [Rule.andThen, ht, hbody, List.cons_append, List.nil_append]
  have hclosing : Sound closing := by
    rcases hc with rfl | ⟨c, rfl, -⟩
    · exact sound_nil
    · exact sound_leaf c
  have hs : Sound (.leaf t :: body ++ closing) := ((sound_leaf t).append hb.sound).append hclosing
  have ho : FlowCollection b (.leaf t :: body ++ closing) := by
    refine ⟨_, _, _, rfl, by simp [isLeafOf, hk], ?_, hb.each⟩
    rcases hc with rfl | ⟨c, rfl, hc⟩
    · exact .inl rfl
    · exact .inr ⟨_, rfl, by simp [isLeafOf, hc]⟩
  refine ⟨_, rfl, ?_, sound_node ?_ (hcs ▸ hs)⟩
  · cases b <;> rfl
  · rw [hcs]
    cases b <;> exact ho

theorem isNode_flowNodeOf (ts : List Placed) : IsNode inlineKinds (flowNodeOf node ts).trees := by
  rw [flowNodeOf]
  split
  · next h => exact isNode_flowCollectionOf hn (b := .square) h
  · next h => exact isNode_flowCollectionOf hn (b := .curly) h
  · next h => exact isNode_quotedLiteral h
  · exact isNode_flowPlain ts

end Flow

theorem isNode_flowNode (ts : List Placed) : IsNode inlineKinds (flowNode ts).trees :=
  flowNode_induct (P := fun _ p => IsNode inlineKinds p.trees)
    ((lossless_token.andThen (lossless_upTo _)).within _)
    isNode_flowPlain (fun _ _ hn => isNode_flowNodeOf hn) ts

end Grammar

end LosslessYaml
