import LosslessYaml.Assembly

/-! Plans for assembling a tree. A plan is a tree in which each node says whether it is opened before
its first child or put around it afterwards. The events a plan writes are given in closed form
(`Plan.events`), and replaying them builds the plan's tree (`finish_drive`). -/

namespace LosslessYaml

inductive Plan : Type
  | leaf (token : Token)
  | node (late : Bool) (kind : Kind) (children : List Plan)

namespace Plan

def isNode : Plan → Bool
  | .leaf _ => false
  | .node _ _ _ => true

mutual

def tree : Plan → Tree
  | .leaf t => .leaf t
  | .node _ k cs => .node k (trees cs)

def trees : List Plan → List Tree
  | [] => []
  | p :: ps => p.tree :: trees ps

end

mutual

def drive : Plan → Assembly → Mark × Assembly
  | .leaf _, a => (⟨a.events.length⟩, a.bump)
  | .node _ k [], a =>
    let (m, a) := a.start
    (m, a.complete m k)
  | .node late k (c :: cs), a =>
    if late && c.isNode then
      let (m, a) := drive c a
      let (n, a) := a.precede m
      (n, (driveAll cs a).complete n k)
    else
      let (m, a) := a.start
      (m, (driveAll (c :: cs) a).complete m k)

def driveAll : List Plan → Assembly → Assembly
  | [], a => a
  | p :: ps, a => driveAll ps (drive p a).2

end

mutual

def size : Plan → Nat
  | .leaf _ => 1
  | .node _ _ cs => sizes cs + 2

def sizes : List Plan → Nat
  | [] => 0
  | p :: ps => p.size + sizes ps

end

mutual

/-- The events of a plan from index `b` on. `wrapper` is where its own start points to. -/
def events (b : Nat) (wrapper : Option Nat) : Plan → List Event
  | .leaf t => [.token t.kind]
  | .node _ k [] => [.start k wrapper, .finish]
  | .node late k (c :: cs) =>
    if late && c.isNode then
      c.events b (some (b + c.size)) ++ .start k wrapper ::
        (eventsOf (b + c.size + 1) cs ++ [.finish])
    else .start k wrapper :: (eventsOf (b + 1) (c :: cs) ++ [.finish])

def eventsOf (b : Nat) : List Plan → List Event
  | [] => []
  | p :: ps => p.events b none ++ eventsOf (b + p.size) ps

end

def mark (b : Nat) : Plan → Nat
  | .leaf _ => b
  | .node _ _ [] => b
  | .node late _ (c :: _) => if late && c.isNode then b + c.size else b

mutual

@[simp] theorem length_events (b : Nat) (w : Option Nat) :
    ∀ p : Plan, (p.events b w).length = p.size
  | .leaf _ => rfl
  | .node _ _ [] => rfl
  | .node late k (c :: cs) => by
    have hc := length_events b (some (b + c.size)) c
    have hcs := length_eventsOf (b + c.size + 1) cs
    have hall := length_eventsOf (b + 1) (c :: cs)
    rw [events]
    split
    · simp only [List.length_append, List.length_cons, List.length_nil, hc, hcs, size, sizes]
      omega
    · simp only [List.length_append, List.length_cons, List.length_nil, hall, size, sizes]

@[simp] theorem length_eventsOf (b : Nat) : ∀ ps : List Plan, (eventsOf b ps).length = sizes ps
  | [] => rfl
  | p :: ps => by
    have hp := length_events b none p
    have hps := length_eventsOf (b + p.size) ps
    simp only [eventsOf, List.length_append, hp, hps, sizes]

end

theorem modify_append_self {xs ys : List Event} {e : Event} {i : Nat} (h : xs.length = i)
    (f : Event → Event) :
    (xs ++ e :: ys).modify i f = xs ++ f e :: ys := by
  subst h
  induction xs with
  | nil => rfl
  | cons x xs ih => simpa using ih

theorem set_append_self {xs ys : List Event} {e : Event} {i : Nat} (h : xs.length = i)
    (e' : Event) :
    (xs ++ e :: ys).set i e' = xs ++ e' :: ys := by
  subst h
  simp

theorem modify_events {p : Plan} (hp : p.isNode = true) {es : List Event} (i : Nat) :
    (es ++ p.events es.length none).modify (p.mark es.length) (Assembly.pointTo i) =
      es ++ p.events es.length (some i) := by
  cases p with
  | leaf t => exact absurd hp (by simp [isNode])
  | node late k cs =>
    cases cs with
    | nil => exact modify_append_self rfl _
    | cons c cs =>
      simp only [events, mark]
      split
      · rw [← List.append_assoc, ← List.append_assoc]
        exact modify_append_self (by simp) _
      · exact modify_append_self rfl _

end Plan

namespace Assembly

def advance (a : Assembly) (n : Nat) (es : List Event) : Assembly :=
  { a with position := a.position + n, events := a.events ++ es }

@[simp] theorem events_advance (a : Assembly) (n : Nat) (es : List Event) :
    (a.advance n es).events = a.events ++ es := rfl

@[simp] theorem rest_advance (a : Assembly) (n : Nat) (es : List Event) :
    (a.advance n es).rest = a.rest.drop n := by
  simp [rest, advance]

theorem advance_advance (a : Assembly) (m n : Nat) (es fs : List Event) :
    (a.advance m es).advance n fs = a.advance (m + n) (es ++ fs) := by
  simp [advance, Nat.add_assoc]

theorem start_eq (a : Assembly) : a.start = (⟨a.events.length⟩, a.advance 0 [.placeholder]) := rfl

theorem bump_eq {a : Assembly} {t : Placed} {ts : List Placed} (h : a.rest = t :: ts) :
    a.bump = a.advance 1 [.token t.kind] := by
  simp [bump, h, push, advance]

theorem complete_eq (a : Assembly) (xs es : List Event) {i : Nat}
    (h : (a.events ++ xs).length = i) (n : Nat)
    (k : Kind) : (a.advance n (xs ++ .placeholder :: es)).complete ⟨i⟩ k =
      a.advance n (xs ++ .start k none :: (es ++ [.finish])) := by
  have hs : (a.events ++ (xs ++ .placeholder :: es)).set i (.start k none) =
      a.events ++ (xs ++ .start k none :: es) := by
    rw [← List.append_assoc, ← List.append_assoc]
    exact Plan.set_append_self h _
  simp [complete, advance, hs]

theorem complete_start (a : Assembly) (es : List Event) (n : Nat) (k : Kind) :
    (a.advance n (.placeholder :: es)).complete ⟨a.events.length⟩ k =
      a.advance n (.start k none :: (es ++ [.finish])) :=
  complete_eq a [] es (by simp) n k

theorem precede_eq {a : Assembly} {p : Plan} (hp : p.isNode = true) (n : Nat) :
    (a.advance n (p.events a.events.length none)).precede ⟨p.mark a.events.length⟩ =
      (⟨a.events.length + p.size⟩,
        a.advance n (p.events a.events.length (some (a.events.length + p.size)) ++
          [.placeholder])) := by
  simp [precede, advance, Plan.modify_events hp]

end Assembly

namespace Plan

mutual

theorem drive_eq : ∀ (p : Plan) (a : Assembly) (us : List Token),
    a.rest.map Placed.token = p.tree.leaves ++ us → drive p a =
      (⟨p.mark a.events.length⟩, a.advance p.tree.leaves.length (p.events a.events.length none))
  | .leaf t, a, us, h => by
    obtain ⟨x, xs, hr, hx, -⟩ := List.map_eq_cons_iff.1 h
    rw [drive, Assembly.bump_eq hr]
    simp [mark, events, tree, Tree.leaves, Placed.kind, hx]
  | .node late k [], a, us, h => by
    rw [drive, Assembly.start_eq]
    exact congrArg (Prod.mk _) (Assembly.complete_start a [] 0 k)
  | .node late k (c :: cs), a, us, h => by
    rw [tree, Tree.leaves] at h
    rw [drive]
    split
    · next hl =>
      rw [trees, Tree.leavesOf, List.append_assoc] at h
      simp only [Bool.and_eq_true] at hl
      have hcs := driveAll_eq cs (a.advance c.tree.leaves.length
        (c.events a.events.length (some (a.events.length + c.size)) ++ [.placeholder])) us
        (by simp [List.map_drop, h])
      rw [drive_eq c a _ h]
      simp only [Assembly.precede_eq hl.2, hcs, Assembly.advance_advance, List.append_assoc,
        List.singleton_append]
      rw [Assembly.complete_eq _ _ _ (by simp)]
      simp [mark, events, tree, trees, Tree.leaves, Tree.leavesOf, hl, Nat.add_assoc]
    · next hl =>
      have hcs := driveAll_eq (c :: cs) (a.advance 0 [.placeholder]) us (by simpa using h)
      rw [Assembly.start_eq]
      simp only [hcs, Assembly.advance_advance, List.singleton_append, Assembly.complete_start]
      simp [mark, events, tree, Tree.leaves, hl]

theorem driveAll_eq : ∀ (ps : List Plan) (a : Assembly) (us : List Token),
    a.rest.map Placed.token = Tree.leavesOf (trees ps) ++ us →
      driveAll ps a = a.advance (Tree.leavesOf (trees ps)).length (eventsOf a.events.length ps)
  | [], a, us, h => by simp [driveAll, trees, Tree.leavesOf, eventsOf, Assembly.advance]
  | p :: ps, a, us, h => by
    rw [trees, Tree.leavesOf, List.append_assoc] at h
    have hps := driveAll_eq ps (a.advance p.tree.leaves.length (p.events a.events.length none)) us
      (by simp [List.map_drop, h])
    rw [driveAll, drive_eq p a _ h, hps, Assembly.advance_advance]
    simp [trees, Tree.leavesOf, eventsOf]

end

end Plan

end LosslessYaml
