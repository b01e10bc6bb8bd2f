import LosslessYaml.Proofs.Assembly.Replay
import LosslessYaml.Proofs.Grammar.Progress

namespace LosslessYaml.Assembly

open Rule Grammar

def follow (flow : Bool) (r : Rule) (a : Assembly) : Assembly := emitAll flow (r a.rest).trees a

def precedePair (a : Assembly) (m : Mark) : Mark × Assembly :=
  let (n, a) := a.precede m
  (a.complete n .key).precede n

variable {flow : Bool} {r s : Rule} {a : Assembly}

theorem emitAll_append (flow : Bool) (ts us : List Tree) (a : Assembly) :
    emitAll flow (ts ++ us) a = emitAll flow us (emitAll flow ts a) := by
  induction ts generalizing a with
  | nil => rfl
  | cons t ts ih => exact ih _

theorem rest_emitAll {ts : List Tree} {us : List Token}
    (h : a.rest.map Placed.token = Tree.leavesOf ts ++ us) :
    (emitAll flow ts a).rest = a.rest.drop (Tree.leavesOf ts).length := by
  have ht := trees_plansOf flow ts
  rw [emitAll_eq_driveAll, Plan.driveAll_eq _ a us (by rw [ht, h]), ht, rest_advance]

theorem rest_follow (hr : Lossless r) : (a.follow flow r).rest = (r a.rest).rest := by
  obtain ⟨us, h, hl⟩ := hr a.rest
  have hm : a.rest.map Placed.token =
      Tree.leavesOf (r a.rest).trees ++ (r a.rest).rest.map Placed.token := by
    rw [hl, ← List.map_append, ← h]
  have hd := congrArg (List.drop us.length) h
  rw [List.drop_left] at hd
  rw [follow, rest_emitAll hm, hl, List.length_map, hd]

theorem follow_leaves (h : ∀ t ∈ (r a.rest).trees, t.isNode = false) :
    a.follow flow r = a.bumps (r a.rest).trees.length := by
  have hb (ts : List Tree) (a : Assembly) (ht : ∀ t ∈ ts, t.isNode = false) :
      emitAll flow ts a = a.bumps ts.length := by
    induction ts generalizing a with
    | nil => rfl
    | cons t ts ih =>
      cases t with
      | leaf t => exact ih a.bump fun u hu => ht u (List.mem_cons_of_mem _ hu)
      | node k cs => exact absurd (ht _ List.mem_cons_self) (by simp [Tree.isNode])
  exact hb _ a h

theorem follow_andThen (hr : Lossless r) :
    a.follow flow (r.andThen s) = (a.follow flow r).follow flow s := by
  have h : (a.follow flow r).rest = (r a.rest).rest := rest_follow hr
  rw [follow, follow, h, Rule.andThen, emitAll_append, follow]

theorem follow_branch (test : List Placed → Bool) :
    a.follow flow (branch test r s) =
      if test a.rest then a.follow flow r else a.follow flow s := by
  cases h : test a.rest <;> simp [follow, branch, h]

theorem follow_loop {test : List Placed → Bool} (h : Advances test r) (hr : Lossless r) :
    a.follow flow (loop test r) =
      if test a.rest then (a.follow flow r).follow flow (loop test r) else a := by
  rw [h.loop_eq, follow_branch, ← h.loop_eq, follow_andThen hr]
  rfl

theorem follow_within {k : Kind} (h : ∀ t ∈ (r a.rest).trees.head?, isLate flow k t = false) :
    a.follow flow (r.within k) =
      (a.start.2.follow (flowBelow flow k) r).complete a.start.1 k := by
  have hr : a.start.2.rest = a.rest := rfl
  rw [follow, follow, hr, Rule.within]
  cases ht : (r a.rest).trees with
  | nil => rfl
  | cons t ts =>
    have hl : isLate flow k t = false := h t (by rw [ht]; rfl)
    rw [emitAll, emitAll, emit, hl]
    rfl

theorem isLate_of_ne {k : Kind} (hp : k ≠ .pair) (hk : k ≠ .key) (flow : Bool) (t : Tree) :
    isLate flow k t = false := by
  simp [isLate, hp, hk]

theorem emit_node {k : Kind} (hp : k ≠ .pair) (hk : k ≠ .key) (flow flow' : Bool)
    (cs : List Tree) (a : Assembly) : emit flow (.node k cs) a = emit flow' (.node k cs) a := by
  have hb : flowBelow flow k = flowBelow flow' k := by simp [flowBelow, hp]
  cases cs with
  | nil => rfl
  | cons c cs => rw [emit, emit, isLate_of_ne hp hk, isLate_of_ne hp hk, hb]

theorem emit_pair (k : Kind) (cs ts : List Tree) (a : Assembly) :
    emit true (.node .pair (.node .key [.node k cs] :: ts)) a =
      let (m, c) := emit false (.node k cs) a
      let (n, d) := c.precedePair m
      (n, (emitAll true ts d).complete n .pair) := by
  have hkey : isLate true .key (.node k cs) = true := rfl
  have hpair : isLate true .pair (.node .key [.node k cs]) = true := rfl
  have hbelow : flowBelow true .pair = true := rfl
  rw [emit, if_pos hpair, hbelow, emit, if_pos hkey]
  rfl

theorem trees_flowNode (ts : List Placed) :
    ∃ k cs, (flowNode ts).trees = [.node k cs] ∧ k ≠ .pair ∧ k ≠ .key := by
  rw [flowNode, flowNodeOf]
  split <;> exact ⟨_, _, rfl, by decide, by decide⟩

theorem follow_flowNode {t : Tree} (h : (flowNode a.rest).trees = [t]) :
    (emit flow t a).2 = a.follow flow flowNode := by
  rw [follow, h]
  rfl

theorem follow_keyless (b : Bracket) (h : atFlowColon false a.rest = true) :
    a.follow true (flowEntry flowNode b) =
      (a.start.2.follow true (flowPairTail flowNode (colonLength? false a.rest))).complete
        a.start.1 .pair := by
  have he : flowEntry flowNode b a.rest =
      (flowPairTail flowNode (colonLength? false a.rest)).within .pair a.rest := by
    rw [flowEntry, if_pos h]
  rw [follow, he]
  refine follow_within fun t ht => ?_
  rw [colonLength?, if_pos h, flowPairTail] at ht
  cases hr : a.rest with
  | nil => simp [hr, atFlowColon] at h
  | cons x xs =>
    obtain rfl : Tree.leaf x.token = t := by
      simpa [hr, Rule.andThen, Rule.tokens] using ht
    simp [isLate, Tree.isNode]

theorem follow_keyed (b : Bracket) {t : Tree} (h : atFlowColon false a.rest = false)
    (ht : (flowNode a.rest).trees = [t]) :
    a.follow true (flowEntry flowNode b) =
      let (m, c) := emit true t a
      let colon := colonLength? (endsItself (next a.rest)) c.rest
      if colon.isNone && b = .square then c
      else
        let (n, d) := c.precedePair m
        (d.follow true (flowPairTail flowNode colon)).complete n .pair := by
  obtain ⟨k, cs, hk, hp, hkey⟩ := trees_flowNode a.rest
  obtain rfl : t = .node k cs := by simpa [hk] using ht.symm
  have hrest : (emit true (.node k cs) a).2.rest = (flowNode a.rest).rest := by
    rw [follow_flowNode hk, rest_follow lossless_flowNode]
  rw [follow, flowEntry, if_neg (by simp [h])]
  simp only [hrest]
  split
  · rw [hk]
    rfl
  · have hn : emit false (.node k cs) a = emit true (.node k cs) a := emit_node hp hkey _ _ _ _
    have hd : ((emit true (.node k cs) a).2.precedePair (emit true (.node k cs) a).1).2.rest =
        (flowNode a.rest).rest := hrest
    rw [hk, emitAll, emitAll, emit_pair, hn, follow, hd]

theorem readStream_eq (a : Assembly) :
    a.readStream = (a.start.2.follow false documents).complete a.start.1 .stream :=
  follow_within (r := documents) fun t _ => isLate_of_ne (by decide) (by decide) false t

/-- The events of a stream are written while it is read: a token's where the token is taken, a node's
before and after those of its parts. Only the key and the pair around a node in brackets are not
known before the node was read. -/
structure Stepwise : Prop where
  stream (a : Assembly) :
    a.readStream = (a.start.2.follow false documents).complete a.start.1 .stream
  leaves (flow : Bool) (r : Rule) (a : Assembly) :
    (∀ t ∈ (r a.rest).trees, t.isNode = false) →
      a.follow flow r = a.bumps (r a.rest).trees.length
  andThen (flow : Bool) (r s : Rule) (a : Assembly) : Lossless r →
    a.follow flow (r.andThen s) = (a.follow flow r).follow flow s
  branch (flow : Bool) (test : List Placed → Bool) (r s : Rule) (a : Assembly) :
    a.follow flow (branch test r s) = if test a.rest then a.follow flow r else a.follow flow s
  loop (flow : Bool) (test : List Placed → Bool) (r : Rule) (a : Assembly) :
    Advances test r → Lossless r →
      a.follow flow (loop test r) =
        if test a.rest then (a.follow flow r).follow flow (loop test r) else a
  within (flow : Bool) (k : Kind) (r : Rule) (a : Assembly) :
    (flow = true → k ≠ .pair ∧ k ≠ .key) →
      a.follow flow (r.within k) =
        (a.start.2.follow (flowBelow flow k) r).complete a.start.1 k
  keyless (b : Bracket) (a : Assembly) : atFlowColon false a.rest = true →
    a.follow true (flowEntry flowNode b) =
      (a.start.2.follow true (flowPairTail flowNode (colonLength? false a.rest))).complete
        a.start.1 .pair
  keyed (b : Bracket) (t : Tree) (a : Assembly) : atFlowColon false a.rest = false →
    (flowNode a.rest).trees = [t] →
      a.follow true (flowEntry flowNode b) =
        let (m, c) := emit true t a
        let colon := colonLength? (endsItself (next a.rest)) c.rest
        if colon.isNone && b = .square then c
        else
          let (n, d) := c.precedePair m
          (d.follow true (flowPairTail flowNode colon)).complete n .pair

theorem stepwise : Stepwise where
  stream := readStream_eq
  leaves _ _ _ := follow_leaves
  andThen _ _ _ _ := follow_andThen
  branch _ test _ _ _ := follow_branch test
  loop _ _ _ _ := follow_loop
  within flow k r a h := follow_within fun t _ => by
    cases flow with
    | false => rfl
    | true => exact isLate_of_ne (h rfl).1 (h rfl).2 true t
  keyless b _ := follow_keyless b
  keyed b _ _ := follow_keyed b

end LosslessYaml.Assembly
