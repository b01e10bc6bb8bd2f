import LosslessYaml.Proofs.Assembly.Replay

namespace LosslessYaml

namespace Assembly

/-- Completes a node. Its start must still be reserved. -/
def complete? (a : Assembly) (m : Mark) (k : Kind) : Option Assembly :=
  if a.events[m.index]? = some .placeholder then some (a.complete m k) else none

def precede? (a : Assembly) (m : Mark) : Option (Mark × Assembly) :=
  if m.index ≤ a.events.length then some (a.precede m) else none

/-- Gives up a node. If an event is taken back, it must be the node's reservation. -/
def abandon? (a : Assembly) (m : Mark) : Option Assembly :=
  match a.events.getLast? with
  | none => none
  | some e => if m.index + 1 = a.events.length ∧ e ≠ .placeholder then none else some (a.abandon m)

theorem complete?_eq (a : Assembly) (xs es : List Event) {i : Nat} (h : (a.events ++ xs).length = i) (n : Nat)
    (k : Kind) : (a.advance n (xs ++ .placeholder :: es)).complete? ⟨i⟩ k =
      some ((a.advance n (xs ++ .placeholder :: es)).complete ⟨i⟩ k) := by
  refine if_pos ?_
  rw [events_advance, ← List.append_assoc, List.getElem?_append_right (Nat.le_of_eq h), h, Nat.sub_self]
  rfl

theorem complete?_start (a : Assembly) (es : List Event) (n : Nat) (k : Kind) :
    (a.advance n (.placeholder :: es)).complete? ⟨a.events.length⟩ k =
      some ((a.advance n (.placeholder :: es)).complete ⟨a.events.length⟩ k) :=
  complete?_eq a [] es (by simp) n k

end Assembly

namespace Plan

mutual

def drive? : Plan → Assembly → Option (Mark × Assembly)
  | .leaf _, a => some (⟨a.events.length⟩, a.bump)
  | .node _ k [], a => do
    let (m, a) := a.start
    return (m, ← a.complete? m k)
  | .node late k (c :: cs), a =>
    if late && c.isNode then do
      let (m, a) ← drive? c a
      let (n, a) ← a.precede? m
      return (n, ← (← driveAll? cs a).complete? n k)
    else do
      let (m, a) := a.start
      return (m, ← (← driveAll? (c :: cs) a).complete? m k)

def driveAll? : List Plan → Assembly → Option Assembly
  | [], a => some a
  | p :: ps, a => do driveAll? ps (← drive? p a).2

end

theorem mark_le (b : Nat) (p : Plan) : p.mark b ≤ b + p.size := by
  cases p with
  | leaf t => exact Nat.le_add_right _ _
  | node late k cs =>
    cases cs with
    | nil => exact Nat.le_add_right _ _
    | cons c cs =>
      rw [mark, size, sizes]
      split <;> omega

mutual

theorem drive?_eq_drive : ∀ (p : Plan) (a : Assembly) (us : List Token),
    a.rest.map Placed.token = p.tree.leaves ++ us → drive? p a = some (drive p a)
  | .leaf t, a, us, h => by rw [drive?, drive]
  | .node late k [], a, us, h => by
    rw [drive?, drive, Assembly.start_eq]
    simp only [Assembly.complete?_start a [] 0 k]
    rfl
  | .node late k (c :: cs), a, us, h => by
    rw [tree, Tree.leaves] at h
    rw [drive?, drive]
    split
    · next hl =>
      rw [trees, Tree.leavesOf, List.append_assoc] at h
      simp only [Bool.and_eq_true] at hl
      have hrest : (a.advance c.tree.leaves.length
          (c.events a.events.length (some (a.events.length + c.size)) ++ [.placeholder])).rest.map Placed.token =
          Tree.leavesOf (trees cs) ++ us := by
        simp [List.map_drop, h]
      have hmark : c.mark a.events.length ≤
          (a.advance c.tree.leaves.length (c.events a.events.length none)).events.length := by
        simpa using mark_le a.events.length c
      simp only [drive?_eq_drive c a _ h, drive_eq c a _ h, Option.bind_eq_bind, Option.bind_some,
        Assembly.precede?, hmark, if_true, Assembly.precede_eq hl.2, driveAll?_eq_driveAll cs _ us hrest,
        driveAll_eq cs _ us hrest, Assembly.advance_advance, List.append_assoc, List.singleton_append]
      rw [Assembly.complete?_eq _ _ _ (by simp)]
      rfl
    · have hrest : (a.advance 0 [.placeholder]).rest.map Placed.token = Tree.leavesOf (trees (c :: cs)) ++ us := by
        simpa using h
      simp only [Assembly.start_eq, driveAll?_eq_driveAll (c :: cs) _ us hrest, driveAll_eq (c :: cs) _ us hrest,
        Option.bind_eq_bind, Option.bind_some, Assembly.advance_advance, List.singleton_append,
        Assembly.complete?_start]
      rfl

theorem driveAll?_eq_driveAll : ∀ (ps : List Plan) (a : Assembly) (us : List Token),
    a.rest.map Placed.token = Tree.leavesOf (trees ps) ++ us → driveAll? ps a = some (driveAll ps a)
  | [], a, us, h => by rw [driveAll?, driveAll]
  | p :: ps, a, us, h => by
    rw [trees, Tree.leavesOf, List.append_assoc] at h
    have hrest : (drive p a).2.rest.map Placed.token = Tree.leavesOf (trees ps) ++ us := by
      rw [drive_eq p a _ h]
      simp [List.map_drop, h]
    rw [driveAll?, driveAll, drive?_eq_drive p a _ h]
    exact driveAll?_eq_driveAll ps _ us hrest

end

theorem isNode_tree (p : Plan) : p.tree.isNode = p.isNode := by
  cases p with
  | leaf t => rfl
  | node late k cs => rfl

/-- A tree over the tokens of a text is assembled by every plan for it: no check fails, and the events describe the
tree. -/
theorem finish_drive? (s : List Char) {t : Tree} (ht : t.isNode = true) (hl : t.leaves = Token.scan s) {p : Plan}
    (hp : p.tree = t) : ∃ m a, p.drive? (Assembly.ofText s) = some (m, a) ∧ a.finish = .ok t := by
  subst hp
  have hrest : (Assembly.ofText s).tokens.map Placed.token = p.tree.leaves := by
    rw [hl, Assembly.ofText, Placed.map_token_place]
  refine ⟨_, _, drive?_eq_drive p (Assembly.ofText s) [] ?_, finish_drive (p.isNode_tree ▸ ht) hrest⟩
  rw [List.append_nil, ← hrest]
  rfl

def latePair : Plan :=
  .node true .stream [.node true .pair [.node true .key [.node true .literal [.leaf ⟨.text, ['a']⟩]],
    .leaf ⟨.colon, [':']⟩, .leaf ⟨.whitespace, [' ']⟩, .node true .literal [.leaf ⟨.text, ['b']⟩]]]

theorem finish_drive?_latePair :
    latePair.tree.leaves = Token.scan ['a', ':', ' ', 'b'] ∧
      ∃ m a, latePair.drive? (Assembly.ofText ['a', ':', ' ', 'b']) = some (m, a) ∧ a.finish = .ok latePair.tree :=
  have h : latePair.tree.leaves = Token.scan ['a', ':', ' ', 'b'] := by decide +kernel
  ⟨h, finish_drive? _ rfl h rfl⟩

end Plan

end LosslessYaml
