import LosslessYaml.Indent
import LosslessYaml.Proofs.Tree.Descent

namespace LosslessYaml

namespace Focus

theorem climbFrom_node_mem (n : Located) (ps : List Located) : (climbFrom n ps).node ∈ n :: ps := by
  induction ps generalizing n with
  | nil => exact List.mem_cons_self
  | cons p ps ih =>
    rw [climbFrom]
    split
    · exact List.mem_cons_of_mem n (ih p)
    · exact List.mem_cons_self

theorem climb_node_mem (f : Focus) : f.climb.node ∈ f.chain := climbFrom_node_mem f.node f.parents

end Focus

namespace Cursor

variable {c : Cursor}

theorem baseLine_eq {x : Located} {l : Line} (hroot : c.root.isNode = true)
    (h : ∀ a ∈ c.root.nodes, a.start < l.start → l.start < a.stop → a.encloses x = true) :
    c.baseLine x l = l := by
  have hacross : (c.root.focus l.start .around).climb.node.encloses x = true := by
    obtain ⟨hmem, heq | hat⟩ :=
      Tree.mem_chain_focus hroot (Focus.climb_node_mem (c.root.focus l.start .around))
    · rw [heq]
      rfl
    · simp only [Side.holds, Bool.and_eq_true, decide_eq_true_eq] at hat
      exact h _ hmem hat.1 hat.2
  rw [baseLine, hacross, Bool.or_true]
  rfl

theorem indentAmong_eq_streamIndent {ns : List Located} (hf : ∀ n ∈ ns, n.kind.isFlowCollection = false)
    (hs : ∃ n ∈ ns, n.kind = .stream) : c.indentAmong ns = c.streamIndent := by
  induction ns with
  | nil =>
    obtain ⟨n, hn, -⟩ := hs
    cases hn
  | cons n ns ih =>
    obtain ⟨hn, hns⟩ := List.forall_mem_cons.1 hf
    rw [indentAmong]
    split
    · next hk =>
      rw [hk] at hn
      cases hn
    · next hk =>
      rw [hk] at hn
      cases hn
    · rfl
    · next hk =>
      refine ih hns ?_
      obtain ⟨m, hm, hstream⟩ := hs
      rcases List.mem_cons.1 hm with rfl | hm
      · exact absurd hstream hk
      · exact ⟨m, hm, hstream⟩

theorem firstOpinion_eq {zs ys : List Located} {x : Located} {k : Nat}
    (hz : ∀ z ∈ zs, c.pos ≤ z.stop ∧ c.opinion z = .ok .pass) (hx : c.pos ≤ x.stop)
    (ho : c.opinion x = .ok (.column k)) : c.firstOpinion (zs ++ x :: ys) = .ok (some k) := by
  induction zs with
  | nil =>
    rw [List.nil_append, firstOpinion, if_neg (Nat.not_lt.2 hx), ho]
    rfl
  | cons z zs ih =>
    obtain ⟨⟨hle, hpass⟩, hzs⟩ := List.forall_mem_cons.1 hz
    rw [List.cons_append, firstOpinion, if_neg (Nat.not_lt.2 hle), hpass]
    exact ih hzs

end Cursor

end LosslessYaml
