import LosslessYaml.Proofs.Fold.Repeats

namespace LosslessYaml.Fold

def opening? (d : Document) (l : Line) (n : Located) : Option Fold := (ofNode? d n).filter (opensOn l)

def openers (root : Tree) (d : Document) (l : Line) : List Located :=
  root.nodes.filter fun n => (opening? d l n).isSome

structure Crosses (l : Line) (n : Located) : Prop where
  start : l.start ≤ n.start
  line : n.start ≤ l.stop
  stop : l.stop < n.stop

section Line

variable {d : Document} {l : Line}

theorem opening?_eq_some {n : Located} {f : Fold} (h : opening? d l n = some f) :
    ofNode? d n = some f ∧ l.start ≤ f.start ∧ f.start ≤ l.stop ∧ l.stop < f.stop := by
  obtain ⟨hf, ho⟩ := Option.filter_eq_some_iff.1 h
  simp only [opensOn, Bool.and_eq_true, decide_eq_true_eq] at ho
  exact ⟨hf, ho.1.1, ho.1.2, ho.2⟩

theorem isEmpty_of_opensOn {f : Fold} (h : opensOn l f = true) : f.isEmpty = false := by
  simp only [opensOn, Bool.and_eq_true, decide_eq_true_eq] at h
  simp only [isEmpty, decide_eq_false_iff_not]
  omega

theorem find?_all (root : Tree) :
    (all root d).find? (opensOn l) = root.nodes.findSome? (opening? d l) := by
  have hp : (fun f => !f.isEmpty && opensOn l f) = opensOn l := by
    funext f
    cases h : opensOn l f with
    | false => rw [Bool.and_false]
    | true => rw [isEmpty_of_opensOn h]; rfl
  calc (all root d).find? (opensOn l)
      = (root.nodes.filterMap (ofNode? d)).find? (opensOn l) := by
        rw [all, find?_collapse, List.find?_filter]
        simp only [Bool.decide_and, Bool.decide_eq_true, hp]
    _ = root.nodes.findSome? (opening? d l) := by
        rw [← List.head?_filter, List.filter_filterMap, List.head?_filterMap]
        rfl

theorem head?_openers (root : Tree) :
    (openers root d l).head?.bind (ofNode? d) = root.nodes.findSome? (opening? d l) := by
  rw [openers, List.head?_filter]
  induction root.nodes with
  | nil => rfl
  | cons n ns ih =>
    rw [List.find?_cons, List.findSome?_cons]
    cases h : opening? d l n with
    | none => exact ih
    | some f => exact (opening?_eq_some h).1

theorem outermost_eq {found : Option Fold} {ns : List Located}
    (hns : ns.Pairwise fun m n => n.start ≤ m.start)
    (hc : ∀ n ∈ ns, (opening? d l n).isSome = true → Crosses l n) :
    outermost d l found ns = (ns.reverse.findSome? (opening? d l)).or found := by
  induction ns generalizing found with
  | nil => rfl
  | cons n ns ih =>
    obtain ⟨hn, hns⟩ := List.pairwise_cons.1 hns
    have ih := fun found => @ih found hns fun m hm => hc m (List.mem_cons_of_mem n hm)
    rw [List.reverse_cons, List.findSome?_append, List.findSome?_singleton, Option.or_assoc, outermost]
    split
    · next hskip =>
      -- the node does not reach over the end of the line
      have hno : opening? d l n = none := by
        refine Option.eq_none_iff_forall_ne_some.2 fun f hf => ?_
        have hcross := hc n List.mem_cons_self (by rw [hf]; rfl)
        have hline := hcross.line
        have hstop := hcross.stop
        simp only [Bool.or_eq_true, decide_eq_true_eq] at hskip
        omega
      rw [hno, Option.none_or, ih]
    · split
      · next hdone =>
        -- this node and all further ones start above the line
        obtain ⟨-, habove⟩ := Bool.and_eq_true_iff.1 hdone
        have hno : ∀ m ∈ n :: ns, opening? d l m = none := by
          intro m hm
          refine Option.eq_none_iff_forall_ne_some.2 fun f hf => ?_
          have hstart := (hc m hm (by rw [hf]; rfl)).start
          have hle : m.start ≤ n.start := by
            rcases List.mem_cons.1 hm with rfl | hm
            · exact Nat.le_refl _
            · exact hn m hm
          simp only [decide_eq_true_eq] at habove
          omega
        rw [hno n List.mem_cons_self, List.findSome?_eq_none_iff.2 fun m hm =>
          hno m (List.mem_cons_of_mem n (List.mem_reverse.1 hm))]
        rfl
      · rw [opening?]
        split
        · next f hf =>
          rw [ih, hf]
          cases hopen : opensOn l f with
          | true => rw [Option.filter_some_pos hopen]; rfl
          | false => rw [Option.filter_some_neg hopen]; rfl
        · next hf => rw [ih, hf]; rfl

end Line

theorem findSome?_filter {α β : Type} {f : α → Option β} {p : α → Bool} {xs : List α}
    (h : ∀ x ∈ xs, (f x).isSome = true → p x = true) : (xs.filter p).findSome? f = xs.findSome? f := by
  induction xs with
  | nil => rfl
  | cons x xs ih =>
    have ih := ih fun y hy => h y (List.mem_cons_of_mem x hy)
    cases hp : p x with
    | true => rw [List.filter_cons_of_pos hp, List.findSome?_cons, List.findSome?_cons, ih]
    | false =>
      have hx : f x = none := by
        rw [← Option.not_isSome_iff_eq_none]
        intro hf
        rw [h x List.mem_cons_self hf] at hp
        cases hp
      rw [List.filter_cons_of_neg (by rw [hp]; exact Bool.false_ne_true), ih, List.findSome?_cons, hx]

section Parsed

variable {s : List Char} {l : Line}

theorem crosses_of_opening? {n : Located} (hl : l ∈ (Document.ofText s).lines)
    (h : n ∈ (parse s).nodes) (ho : (opening? (Document.ofText s) l n).isSome = true) :
    Crosses l n := by
  obtain ⟨f, hf⟩ := Option.isSome_iff_exists.1 ho
  obtain ⟨hf, hstart, hline, hstop⟩ := opening?_eq_some hf
  have hin := start_le_of_ofNode? h hf
  refine ⟨?_, by omega, by omega⟩
  have hle := (Document.ofText s).lineHolding_start_le n.start
  rcases cases_ofNode? h hf with hb | hi
  · -- the fold starts at the end of the node's line, so this line is `l`
    have hb := hb.start
    have := Line.start_le_stop ((Document.ofText s).lineHolding n.start)
    rcases Document.lines_apart hl ((Document.ofText s).lineHolding_mem n.start) with rfl | hlt | hlt
    · exact hle
    · omega
    · omega
  · have hsize := stop_le_size h
    have hi := hi.line
    rw [Document.lineHolding_eq hl hstart hline (by omega)] at hi
    omega

theorem pairwise_openers (hl : l ∈ (Document.ofText s).lines) :
    (openers (parse s) (Document.ofText s) l).Pairwise fun m n => m.encloses n = true := by
  refine ((parse s).pairwise_nodes.sublist List.filter_sublist).imp_of_mem ?_
  intro m n hm hn hmn
  obtain ⟨hm, hmo⟩ := List.mem_filter.1 hm
  obtain ⟨hn, hno⟩ := List.mem_filter.1 hn
  rcases hmn with ha | hle
  · exact ha.encloses
  · have hm := (crosses_of_opening? hl hm hmo).stop
    have hn := (crosses_of_opening? hl hn hno).line
    omega

theorem reverse_chain_sublist (s : List Char) (pos : Nat) (side : Side) :
    ((parse s).focus pos side).chain.reverse.Sublist (parse s).nodes := by
  obtain ⟨below, hnodes, hchain⟩ := Tree.nodes_and_chain (parse s) pos side rfl
  rw [hchain, hnodes]
  exact List.filter_sublist.cons_cons _

theorem findSome?_chain (hl : l ∈ (Document.ofText s).lines) :
    ((parse s).focus l.stop .after).chain.reverse.findSome? (opening? (Document.ofText s) l) =
      (parse s).nodes.findSome? (opening? (Document.ofText s) l) := by
  obtain ⟨below, hnodes, hchain⟩ := Tree.nodes_and_chain (parse s) l.stop .after rfl
  rw [hchain, hnodes, List.findSome?_cons, List.findSome?_cons, findSome?_filter]
  intro n hn ho
  have hc := crosses_of_opening? hl (hnodes ▸ List.mem_cons_of_mem _ hn) ho
  have hline := hc.line
  have hstop := hc.stop
  simp only [Side.holds, Bool.and_eq_true, decide_eq_true_eq]
  omega

end Parsed

/-- On every line of a text the first of all folds that open there is offered, which is the outermost one. -/
theorem atLine?_eq_find? (s : List Char) (k : Nat) :
    match (Document.ofText s).line? k with
    | none => atLine? (parse s) (Document.ofText s) k = none
    | some l =>
      atLine? (parse s) (Document.ofText s) k =
          (all (parse s) (Document.ofText s)).find? (opensOn l) ∧
        atLine? (parse s) (Document.ofText s) k =
          (openers (parse s) (Document.ofText s) l).head?.bind (ofNode? (Document.ofText s)) ∧
        (openers (parse s) (Document.ofText s) l).Pairwise fun m n => m.encloses n = true := by
  cases hk : (Document.ofText s).line? k with
  | none => rw [atLine?, hk]
  | some l =>
    have hl : l ∈ (Document.ofText s).lines := by
      unfold Document.line? at hk
      exact List.mem_of_getElem? (Option.ite_none_left_eq_some.1 hk).2
    have hat : atLine? (parse s) (Document.ofText s) k =
        (parse s).nodes.findSome? (opening? (Document.ofText s) l) := by
      rw [atLine?, hk]
      have hsub := reverse_chain_sublist s l.stop .after
      have horder := ((parse s).pairwise_nodes.sublist hsub).imp Located.Precedes.start_le
      refine (outermost_eq (List.pairwise_reverse.1 horder) fun n hn ho => ?_).trans ?_
      · exact crosses_of_opening? hl (hsub.subset (List.mem_reverse.2 hn)) ho
      · rw [Option.or_none, findSome?_chain hl]
    exact ⟨hat.trans (find?_all _).symm, hat.trans (head?_openers _).symm, pairwise_openers hl⟩

end LosslessYaml.Fold
