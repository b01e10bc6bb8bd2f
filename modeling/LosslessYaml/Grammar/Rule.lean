import LosslessYaml.Tree
import LosslessYaml.Token.Placement

/-!
Grammar rules. A rule reads tokens from the front of a list, gives the trees built from them and
leaves the rest. No rule fails, and no rule loses a token: `Rule.Lossless` holds of the rules below
and is kept by every way of combining them.
-/

namespace LosslessYaml

structure Parsed : Type where
  trees : List Tree
  rest : List Placed

abbrev Rule : Type := List Placed → Parsed

namespace Rule

def skip : Rule := fun ts => ⟨[], ts⟩

def token : Rule
  | [] => ⟨[], []⟩
  | t :: ts => ⟨[.leaf t.token], ts⟩

def tokens (n : Nat) : Rule := fun ts =>
  ⟨(ts.take n).map fun t => .leaf t.token, ts.drop n⟩

def upTo (stop : List Placed → Bool) : Rule
  | [] => ⟨[], []⟩
  | t :: ts =>
    if stop (t :: ts) then ⟨[], t :: ts⟩
    else
      let p := upTo stop ts
      ⟨.leaf t.token :: p.trees, p.rest⟩

def andThen (r s : Rule) : Rule := fun ts =>
  let p := r ts
  let q := s p.rest
  ⟨p.trees ++ q.trees, q.rest⟩

def within (k : Kind) (r : Rule) : Rule := fun ts =>
  let p := r ts
  ⟨[.node k p.trees], p.rest⟩

def branch (test : List Placed → Bool) (r s : Rule) : Rule := fun ts =>
  if test ts then r ts else s ts

def when (test : List Placed → Bool) (r : Rule) : Rule := branch test r skip

/-- Reads by `r` again and again where `test` holds, until `r` makes no progress. -/
def loop (test : List Placed → Bool) (r : Rule) : Rule := fun ts =>
  if test ts then
    let p := r ts
    if p.rest.length < ts.length then
      let q := loop test r p.rest
      ⟨p.trees ++ q.trees, q.rest⟩
    else p
  else ⟨[], ts⟩
termination_by ts => ts.length

def below (n : Nat) (r s : Rule) : Rule := fun ts => if ts.length < n then r ts else s ts

theorem below_of_lt {n : Nat} {ts : List Placed} (h : ts.length < n) {r s : Rule} :
    below n r s ts = r ts :=
  if_pos h

/-- A rule is lossless if it takes tokens from the front only, and the leaves it builds are those. -/
def Lossless (r : Rule) : Prop :=
  ∀ ts, ∃ us, ts = us ++ (r ts).rest ∧ Tree.leavesOf (r ts).trees = us.map Placed.token

theorem lossless_skip : Lossless skip := by
  intro ts
  exact ⟨[], rfl, rfl⟩

theorem lossless_token : Lossless token := by
  intro ts
  cases ts with
  | nil => exact ⟨[], rfl, rfl⟩
  | cons t ts => exact ⟨[t], rfl, rfl⟩

theorem lossless_tokens (n : Nat) : Lossless (tokens n) := by
  intro ts
  refine ⟨ts.take n, (List.take_append_drop n ts).symm, ?_⟩
  have h : (ts.take n).map (fun t => Tree.leaf t.token) =
      ((ts.take n).map Placed.token).map Tree.leaf := by
    simp [Function.comp_def]
  rw [tokens, h, Tree.leavesOf_map_leaf]

theorem lossless_upTo (stop : List Placed → Bool) : Lossless (upTo stop) := by
  intro ts
  induction ts with
  | nil => exact ⟨[], rfl, rfl⟩
  | cons t ts ih =>
    rw [upTo]
    split
    · exact ⟨[], rfl, rfl⟩
    · obtain ⟨us, h, hl⟩ := ih
      refine ⟨t :: us, congrArg (t :: ·) h, ?_⟩
      rw [List.map_cons, ← hl]
      rfl

theorem Lossless.andThen {r s : Rule} (hr : Lossless r) (hs : Lossless s) :
    Lossless (r.andThen s) := by
  intro ts
  obtain ⟨us, h, hl⟩ := hr ts
  obtain ⟨vs, h', hl'⟩ := hs (r ts).rest
  refine ⟨us ++ vs, ?_, ?_⟩
  · rw [List.append_assoc]
    exact h.trans (congrArg (us ++ ·) h')
  · rw [List.map_append, ← hl, ← hl', ← Tree.leavesOf_append]
    rfl

theorem Lossless.within {r : Rule} (hr : Lossless r) (k : Kind) : Lossless (r.within k) := by
  intro ts
  obtain ⟨us, h, hl⟩ := hr ts
  refine ⟨us, h, ?_⟩
  rw [← hl]
  simp [Rule.within, Tree.leavesOf, Tree.leaves]

theorem Lossless.branch {r s : Rule} (hr : Lossless r) (hs : Lossless s)
    (test : List Placed → Bool) :
    Lossless (branch test r s) := by
  intro ts
  rw [Rule.branch]
  split
  · exact hr ts
  · exact hs ts

theorem Lossless.when {r : Rule} (hr : Lossless r) (test : List Placed → Bool) :
    Lossless (when test r) :=
  hr.branch lossless_skip test

theorem Lossless.loop {r : Rule} (hr : Lossless r) (test : List Placed → Bool) :
    Lossless (loop test r) := by
  intro ts
  fun_induction Rule.loop test r ts with
  | case1 ts _ p _ q ih =>
    obtain ⟨us, h, hl⟩ := hr ts
    obtain ⟨vs, h', hl'⟩ := ih
    refine ⟨us ++ vs, ?_, ?_⟩
    · rw [List.append_assoc]
      exact h.trans (congrArg (us ++ ·) h')
    · rw [List.map_append, ← hl, ← hl', ← Tree.leavesOf_append]
  | case2 ts _ p _ => exact hr ts
  | case3 ts _ => exact lossless_skip ts

theorem lossless_below {n : Nat} {r s : Rule}
    (hr : ∀ ts, ts.length < n → ∃ us, ts = us ++ (r ts).rest ∧
      Tree.leavesOf (r ts).trees = us.map Placed.token)
    (hs : Lossless s) : Lossless (below n r s) := by
  intro ts
  rw [below]
  split
  · exact hr ts ‹_›
  · exact hs ts

theorem Lossless.length_rest {r : Rule} (hr : Lossless r) (ts : List Placed) :
    (r ts).rest.length ≤ ts.length := by
  obtain ⟨us, h, -⟩ := hr ts
  have := congrArg List.length h
  rw [List.length_append] at this
  omega

end Rule

end LosslessYaml
