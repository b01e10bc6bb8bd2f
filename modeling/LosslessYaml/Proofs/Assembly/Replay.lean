import LosslessYaml.Proofs.Assembly.Plan

namespace LosslessYaml

namespace Event

theorem takeWrappers_succ {base n : Nat} {w : Option Nat} {es rest : List Event} {ks : List Kind}
    (h : takeWrappers base n w es = .ok (ks, rest)) :
    takeWrappers base (n + 1) w es = .ok (ks, rest) := by
  induction n generalizing w es ks rest with
  | zero =>
    cases w with
    | none => simpa [takeWrappers] using h
    | some i => simp [takeWrappers] at h
  | succ n ih =>
    cases w with
    | none => simpa [takeWrappers] using h
    | some i =>
      rw [takeWrappers] at h ⊢
      split at h
      · next k next he =>
        split at h
        · next ls r hr =>
          rw [ih hr]
          exact h
        · exact absurd h (by simp)
      · exact absurd h (by simp)

theorem takeWrappers_mono {base m n : Nat} {w : Option Nat} {es rest : List Event} {ks : List Kind}
    (h : takeWrappers base m w es = .ok (ks, rest)) (hmn : m ≤ n) :
    takeWrappers base n w es = .ok (ks, rest) := by
  induction hmn with
  | refl => exact h
  | step _ ih => exact takeWrappers_succ ih

theorem takeWrappers_append {base n : Nat} {w : Option Nat} {es rest : List Event} {ks : List Kind}
    (xs : List Event) (h : takeWrappers (base + xs.length) n w es = .ok (ks, rest)) :
    takeWrappers base n w (xs ++ es) = .ok (ks, xs ++ rest) := by
  induction n generalizing w es ks rest with
  | zero =>
    cases w with
    | none => simp_all [takeWrappers]
    | some i => simp [takeWrappers] at h
  | succ n ih =>
    cases w with
    | none => simp_all [takeWrappers]
    | some i =>
      rw [takeWrappers] at h
      split at h
      · next k next he =>
        have hi : base + xs.length ≤ i := by
          apply Decidable.byContradiction
          intro hi
          simp [hi] at he
        have hlen : i - base = xs.length + (i - (base + xs.length)) := by omega
        simp only [if_pos hi] at he
        rw [takeWrappers, if_pos (by omega), hlen, List.getElem?_append_right (by omega),
          Nat.add_sub_cancel_left, he, List.set_append_right _ _ (by omega),
          Nat.add_sub_cancel_left]
        split at h
        · next ls r hr =>
          simp only [ih hr]
          cases h
          rfl
        · exact absurd h (by simp)
      · exact absurd h (by simp)

end Event

namespace Scaffold

def pushAll (ts : List Tree) (s : Scaffold) : Scaffold := { s with here := s.here ++ ts }

theorem pushAll_nil (s : Scaffold) : s.pushAll [] = s := by simp [pushAll]

theorem pushAll_push (t : Tree) (ts : List Tree) (s : Scaffold) :
    (s.push t).pushAll ts = s.pushAll (t :: ts) := by
  simp [pushAll, push]

theorem finish?_start (k : Kind) (ts : List Tree) (s : Scaffold) :
    ((s.start k).pushAll ts).finish? = some (s.push (.node k ts)) := by
  simp [pushAll, start, push, finish?]

end Scaffold

namespace Plan

open Event

theorem takeWrappers_after {b n : Nat} {w : Option Nat} {es rest : List Event} {ks : List Kind}
    (cs : List Plan)
    (h : takeWrappers (b + (sizes cs + 1)) n w es = .ok (ks, rest)) :
    takeWrappers b n w (eventsOf b cs ++ .finish :: es) =
      .ok (ks, eventsOf b cs ++ .finish :: rest) := by
  have ha : takeWrappers b n w (eventsOf b cs ++ [.finish] ++ es) =
      .ok (ks, eventsOf b cs ++ [.finish] ++ rest) :=
    takeWrappers_append _ (by simpa using h)
  simpa using ha

theorem replayFrom_finish (b : Nat) (us : List Token) (k : Kind) (ts : List Tree) (s : Scaffold)
    (es : List Event) : replayFrom b us ((s.start k).pushAll ts) (.finish :: es) =
      replayFrom (b + 1) us (s.push (.node k ts)) es := by
  rw [replayFrom, Scaffold.finish?_start]

theorem replayFrom_node {b n : Nat} {w : Option Nat} {us : List Token} {es rest : List Event}
    {ks : List Kind}
    (k : Kind) (cs : List Plan) (s : Scaffold) (hn : n ≤ es.length)
    (h : takeWrappers (b + 1 + (sizes cs + 1)) n w es = .ok (ks, rest))
    (hcs : ∀ s es, replayFrom (b + 1) (Tree.leavesOf (trees cs) ++ us) s
      (eventsOf (b + 1) cs ++ es) =
      replayFrom (b + 1 + sizes cs) us (s.pushAll (trees cs)) es) :
    replayFrom b (Tree.leavesOf (trees cs) ++ us) s
        (.start k w :: (eventsOf (b + 1) cs ++ .finish :: es)) =
      replayFrom (b + (sizes cs + 2)) us
        ((ks.foldr Scaffold.start s).push (.node k (trees cs))) rest := by
  have ht := takeWrappers_mono (takeWrappers_after cs h)
    (n := (eventsOf (b + 1) cs ++ .finish :: es).length)
    (by simp only [List.length_append, List.length_cons]; omega)
  rw [replayFrom]
  split
  · next e he =>
    rw [ht] at he
    cases he
  · next ls r hr =>
    rw [ht] at hr
    cases hr
    rw [hcs, List.foldr_cons, replayFrom_finish]
    congr 1
    omega

mutual

/-- The plan's own start may point to wrappers that come later; they are opened first. -/
theorem replayFrom_events :
    ∀ (p : Plan) (b n : Nat) (w : Option Nat) (us : List Token) (s : Scaffold)
    (es rest : List Event) (ks : List Kind), n ≤ es.length → (p.isNode = false → w = none) →
    takeWrappers (b + p.size) n w es = .ok (ks, rest) →
    replayFrom b (p.tree.leaves ++ us) s (p.events b w ++ es) =
      replayFrom (b + p.size) us ((ks.foldr Scaffold.start s).push p.tree) rest
  | .leaf t, b, n, w, us, s, es, rest, ks, hn, hw, h => by
    cases hw rfl
    cases n <;> cases h <;> simp [tree, Tree.leaves, events, size, replayFrom]
  | .node late k [], b, n, w, us, s, es, rest, ks, hn, hw, h =>
    replayFrom_node k [] s hn h (fun s es => replayFrom_eventsOf [] (b + 1) us s es)
  | .node late k (c :: cs), b, n, w, us, s, es, rest, ks, hn, hw, h => by
    have hsize : b + (node late k (c :: cs)).size = b + 1 + (sizes (c :: cs) + 1) := by
      simp only [size]
      omega
    rw [events]
    split
    · next hl =>
      simp only [Bool.and_eq_true] at hl
      -- the first child's start points here, so this node and its own wrappers are opened with it
      have hw' : takeWrappers (b + c.size) (n + 1) (some (b + c.size))
          (.start k w :: (eventsOf (b + c.size + 1) cs ++ .finish :: es)) =
          .ok (k :: ks, .placeholder :: (eventsOf (b + c.size + 1) cs ++ .finish :: rest)) := by
        have hbase : b + c.size + 1 + (sizes cs + 1) = b + (node late k (c :: cs)).size := by
          simp only [hsize, sizes]
          omega
        have ha : takeWrappers (b + c.size) n w
            (.placeholder :: (eventsOf (b + c.size + 1) cs ++ .finish :: es)) =
            .ok (ks, .placeholder :: (eventsOf (b + c.size + 1) cs ++ .finish :: rest)) :=
          takeWrappers_append [.placeholder] (takeWrappers_after cs (hbase ▸ h))
        rw [takeWrappers, if_pos (Nat.le_refl _), Nat.sub_self]
        simp only [List.getElem?_cons_zero, List.set_cons_zero, ha]
      have hc := replayFrom_events c b (n + 1) (some (b + c.size))
        (Tree.leavesOf (trees cs) ++ us) s _ _ _
        (by simp; omega) (fun h => by simp [hl.2] at h) hw'
      have hcs := replayFrom_eventsOf cs (b + c.size + 1) us
      rw [tree, trees, Tree.leaves, Tree.leavesOf, List.append_assoc]
      simp only [List.append_assoc, List.cons_append, List.nil_append]
      rw [hc, replayFrom, hcs, Scaffold.pushAll_push, List.foldr_cons, replayFrom_finish,
        hsize, sizes]
      congr 1
      omega
    · have hnode := replayFrom_node k (c :: cs) s hn (hsize ▸ h)
        (fun s es => replayFrom_eventsOf (c :: cs) (b + 1) us s es)
      rw [tree, Tree.leaves, size]
      simpa using hnode

theorem replayFrom_eventsOf : ∀ (ps : List Plan) (b : Nat) (us : List Token) (s : Scaffold)
    (es : List Event), replayFrom b (Tree.leavesOf (trees ps) ++ us) s (eventsOf b ps ++ es) =
      replayFrom (b + sizes ps) us (s.pushAll (trees ps)) es
  | [], b, us, s, es => by simp [trees, Tree.leavesOf, eventsOf, sizes, Scaffold.pushAll_nil]
  | p :: ps, b, us, s, es => by
    have hp := replayFrom_events p b 0 none (Tree.leavesOf (trees ps) ++ us) s
      (eventsOf (b + p.size) ps ++ es) _ [] (Nat.zero_le _) (fun _ => rfl) rfl
    have hps := replayFrom_eventsOf ps (b + p.size) us (s.push p.tree) es
    rw [trees, Tree.leavesOf, eventsOf, List.append_assoc, List.append_assoc, hp]
    simp only [List.foldr_nil, hps, Scaffold.pushAll_push, sizes, Nat.add_assoc]

end

theorem finish_drive {p : Plan} (hp : p.isNode = true) {ts : List Placed}
    (h : ts.map Placed.token = p.tree.leaves) :
    (p.drive { tokens := ts }).2.finish = .ok p.tree := by
  have hd := drive_eq p { tokens := ts } [] (by simpa [Assembly.rest] using h)
  have hr := replayFrom_events p 0 0 none [] {} [] [] [] (Nat.le_refl 0) (fun _ => rfl) rfl
  simp only [List.append_nil, List.foldr_nil, replayFrom] at hr
  simp only [hd, Assembly.finish, Assembly.advance, List.nil_append, List.length_nil, h, replay, hr]
  cases p with
  | leaf t => exact absurd hp (by simp [isNode])
  | node late k cs => simp [Scaffold.trees, Scaffold.push, tree]

end Plan

namespace Assembly

mutual

/-- The plan that `emit` follows. -/
def planOf (flow : Bool) : Tree → Plan
  | .leaf t => .leaf t
  | .node k [] => .node false k []
  | .node k (c :: cs) => .node (isLate flow k c) k (plansOf (flowBelow flow k) (c :: cs))

def plansOf (flow : Bool) : List Tree → List Plan
  | [] => []
  | t :: ts => planOf flow t :: plansOf flow ts

end

mutual

theorem tree_planOf (flow : Bool) : ∀ t : Tree, (planOf flow t).tree = t
  | .leaf _ => rfl
  | .node _ [] => rfl
  | .node k (c :: cs) => by rw [planOf, Plan.tree, trees_plansOf _ (c :: cs)]

theorem trees_plansOf (flow : Bool) : ∀ ts : List Tree, Plan.trees (plansOf flow ts) = ts
  | [] => rfl
  | t :: ts => by rw [plansOf, Plan.trees, tree_planOf flow t, trees_plansOf flow ts]

end

theorem isNode_planOf (flow : Bool) (t : Tree) : (planOf flow t).isNode = t.isNode := by
  cases t with
  | leaf t => rfl
  | node k cs => cases cs <;> rfl

mutual

theorem emit_eq_drive (flow : Bool) :
    ∀ (t : Tree) (a : Assembly), emit flow t a = (planOf flow t).drive a
  | .leaf _, a => rfl
  | .node _ [], a => rfl
  | .node k (c :: cs), a => by
    have hlate : (isLate flow k c && (planOf (flowBelow flow k) c).isNode) = isLate flow k c := by
      rw [isNode_planOf, isLate, Bool.and_assoc, Bool.and_self]
    have hc := emit_eq_drive (flowBelow flow k) c
    have hcs := emitAll_eq_driveAll (flowBelow flow k) cs
    have hall := emitAll_eq_driveAll (flowBelow flow k) (c :: cs)
    rw [plansOf] at hall
    rw [planOf, plansOf, Plan.drive, emit, hlate]
    simp only [hc, hcs, hall]

theorem emitAll_eq_driveAll (flow : Bool) : ∀ (ts : List Tree) (a : Assembly),
    emitAll flow ts a = Plan.driveAll (plansOf flow ts) a
  | [], a => rfl
  | t :: ts, a => by
    rw [emitAll, plansOf, Plan.driveAll, emit_eq_drive flow t, emitAll_eq_driveAll flow ts]

end

end Assembly

end LosslessYaml
