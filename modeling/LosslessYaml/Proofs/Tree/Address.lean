import LosslessYaml.Proofs.Tree.Order
import Mathlib.Data.List.Chain

namespace LosslessYaml

namespace Located

def isAbove (l m : Located) : Bool := l.encloses m && l.address ≠ m.address

theorem encloses_iff {l m : Located} : l.encloses m = true ↔ l.address <+: m.address :=
  List.isPrefixOf_iff_prefix

theorem isAbove_iff {l m : Located} :
    l.isAbove m = true ↔ l.address <+: m.address ∧ l.address ≠ m.address := by
  rw [isAbove, Bool.and_eq_true, encloses_iff, decide_eq_true_eq]

theorem address_of_mem_childrenFrom {address : List Nat} {i n : Nat} {ts : List Tree} {x : Located}
    (h : x ∈ childrenFrom address i n ts) : ∃ j, x.address = address ++ [j] := by
  induction ts generalizing i n with
  | nil => cases h
  | cons t ts ih =>
    rcases List.mem_cons.1 h with rfl | h
    · exact ⟨i, rfl⟩
    · exact ih h

theorem tree_of_mem_childrenFrom {address : List Nat} {i n : Nat} {ts : List Tree} {x : Located}
    (h : x ∈ childrenFrom address i n ts) : x.tree ∈ ts := by
  induction ts generalizing i n with
  | nil => cases h
  | cons t ts ih =>
    rcases List.mem_cons.1 h with rfl | h
    · exact List.mem_cons_self
    · exact List.mem_cons_of_mem _ (ih h)

theorem address_of_mem_children {l x : Located} (h : x ∈ l.children) : ∃ j, x.address = l.address ++ [j] :=
  address_of_mem_childrenFrom h

end Located

namespace Tree

theorem index_eq {address l : List Nat} {i j : Nat} (hi : address ++ [i] <+: l) (hj : address ++ [j] <+: l) :
    i = j := by
  have h := List.prefix_of_prefix_length_le hi hj (by simp)
  rw [List.prefix_append_right_inj] at h
  exact (List.cons_prefix_cons.1 h).1

theorem address_preorderOf {address : List Nat} {i n : Nat} {ts : List Tree} {l : Located}
    (hl : l ∈ preorderOf address i n ts) : ∃ j, i ≤ j ∧ address ++ [j] <+: l.address := by
  induction ts generalizing i n with
  | nil => cases hl
  | cons t ts ih =>
    rw [preorderOf, List.mem_append] at hl
    rcases hl with hl | hl
    · exact ⟨i, Nat.le_refl i, (within_preorderFrom (address ++ [i]) n t l hl).address⟩
    · obtain ⟨j, hj, h⟩ := ih hl
      exact ⟨j, Nat.le_of_succ_le hj, h⟩

section Siblings

variable {address : List Nat} {i n n' : Nat} {t : Tree} {ts : List Tree} {l m : Located}

theorem not_prefix_sibling (hl : l ∈ t.preorderFrom (address ++ [i]) n)
    (hm : m ∈ preorderOf address (i + 1) n' ts) : ¬ l.address <+: m.address := by
  intro h
  obtain ⟨j, hj, hp⟩ := address_preorderOf hm
  have hi := (within_preorderFrom (address ++ [i]) n t l hl).address
  have := index_eq (hi.trans h) hp
  omega

theorem sibling_not_prefix (hl : l ∈ t.preorderFrom (address ++ [i]) n)
    (hm : m ∈ preorderOf address (i + 1) n' ts) : ¬ m.address <+: l.address := by
  intro h
  obtain ⟨j, hj, hp⟩ := address_preorderOf hm
  have hi := (within_preorderFrom (address ++ [i]) n t l hl).address
  have := index_eq hi (hp.trans h)
  omega

theorem below_not_prefix (hm : m ∈ preorderOf address i n ts) : ¬ m.address <+: address := by
  intro h
  obtain ⟨j, -, hp⟩ := address_preorderOf hm
  have hlen := (hp.trans h).length_le
  simp only [List.length_append, List.length_cons] at hlen
  omega

end Siblings

mutual

theorem pairwise_address_preorderFrom (address : List Nat) (n : Nat) :
    ∀ t : Tree, (t.preorderFrom address n).Pairwise fun l m => ¬ m.address <+: l.address
  | .leaf _ => by
    rw [preorderFrom]
    exact List.pairwise_singleton _ _
  | .node k cs => by
    rw [preorderFrom, List.pairwise_cons]
    exact ⟨fun m hm => below_not_prefix hm, pairwise_address_preorderOf address 0 n cs⟩

theorem pairwise_address_preorderOf (address : List Nat) (i n : Nat) :
    ∀ ts : List Tree, (preorderOf address i n ts).Pairwise fun l m => ¬ m.address <+: l.address
  | [] => List.Pairwise.nil
  | t :: ts => by
    rw [preorderOf, List.pairwise_append]
    exact ⟨pairwise_address_preorderFrom (address ++ [i]) n t,
      pairwise_address_preorderOf address (i + 1) (n + t.byteLength) ts,
      fun l hl m hm => sibling_not_prefix hl hm⟩

end

theorem pairwise_address (t : Tree) : t.nodes.Pairwise fun l m => ¬ m.address <+: l.address :=
  (pairwise_address_preorderFrom [] 0 t).filter _

theorem nodup_nodes (t : Tree) : t.nodes.Nodup := by
  refine t.pairwise_address.imp ?_
  rintro l m h rfl
  exact h (List.prefix_refl _)

theorem eq_of_address {t : Tree} {l m : Located} (hl : l ∈ t.nodes) (hm : m ∈ t.nodes)
    (h : l.address = m.address) : l = m := by
  have hp := List.pairwise_iff_getElem.1 t.pairwise_address
  obtain ⟨i, hi, rfl⟩ := List.getElem_of_mem hl
  obtain ⟨j, hj, rfl⟩ := List.getElem_of_mem hm
  rcases Nat.lt_trichotomy i j with hij | rfl | hij
  · exact absurd (h ▸ List.prefix_refl _) (hp i j hi hj hij)
  · rfl
  · exact absurd (h ▸ List.prefix_refl _) (hp j i hj hi hij)

mutual

theorem mem_below_preorderFrom {l m : Located} (h : l.address <+: m.address) (address : List Nat) (n : Nat) :
    ∀ t : Tree, l ∈ t.preorderFrom address n → m ∈ t.preorderFrom address n →
      m ∈ l.tree.preorderFrom l.address l.start
  | .leaf t, hl, hm => by
    rw [preorderFrom, List.mem_singleton] at hl
    rwa [hl]
  | .node k cs, hl, hm => by
    rw [preorderFrom, List.mem_cons] at hl
    rcases hl with rfl | hl
    · exact hm
    · rw [preorderFrom, List.mem_cons] at hm
      rcases hm with rfl | hm
      · exact absurd h <| below_not_prefix hl
      · exact mem_below_preorderOf h address 0 n cs hl hm

theorem mem_below_preorderOf {l m : Located} (h : l.address <+: m.address) (address : List Nat) (i n : Nat) :
    ∀ ts : List Tree, l ∈ preorderOf address i n ts → m ∈ preorderOf address i n ts →
      m ∈ l.tree.preorderFrom l.address l.start
  | [], hl, _ => by cases hl
  | t :: ts, hl, hm => by
    rw [preorderOf, List.mem_append] at hl hm
    rcases hl with hl | hl <;> rcases hm with hm | hm
    · exact mem_below_preorderFrom h (address ++ [i]) n t hl hm
    · exact absurd h (not_prefix_sibling hl hm)
    · exact absurd h <| sibling_not_prefix hm hl
    · exact mem_below_preorderOf h address (i + 1) (n + t.byteLength) ts hl hm

end

theorem mem_preorderFrom_of_encloses {t : Tree} {l m : Located} (hl : l ∈ t.nodes) (hm : m ∈ t.nodes)
    (h : l.encloses m = true) : m ∈ l.tree.preorderFrom l.address l.start :=
  mem_below_preorderFrom (Located.encloses_iff.1 h) [] 0 t (List.mem_filter.1 hl).1 (List.mem_filter.1 hm).1

section Descent

variable {pos : Nat} {side : Side}

mutual

theorem isChain_focusFrom (address : List Nat) (n : Nat) (parents : List Located) :
    ∀ t : Tree, (⟨address, n, t⟩ :: parents).IsChain (fun l p => l ∈ p.children) →
      (t.focusFrom pos side address n parents).chain.IsChain fun l p => l ∈ p.children
  | .leaf _, h => h
  | .node k cs, h => by
    have hcs := isChain_focusAmong address 0 n (⟨address, n, .node k cs⟩ :: parents) cs
      fun x hx => List.isChain_cons_cons.2 ⟨hx, h⟩
    rw [focusFrom]
    cases hf : focusAmong pos side address 0 n (⟨address, n, .node k cs⟩ :: parents) cs with
    | none => exact h
    | some f => exact hcs f hf

theorem isChain_focusAmong (address : List Nat) (i n : Nat) (parents : List Located) :
    ∀ ts : List Tree,
      (∀ x ∈ Located.childrenFrom address i n ts, (x :: parents).IsChain fun l p => l ∈ p.children) →
      ∀ f, focusAmong pos side address i n parents ts = some f → f.chain.IsChain fun l p => l ∈ p.children
  | [], _, f, hf => by cases hf
  | t :: ts, h, f, hf => by
    obtain ⟨ht, hts⟩ := List.forall_mem_cons.1 h
    rw [focusAmong] at hf
    split at hf
    · obtain rfl := Option.some.inj hf
      exact isChain_focusFrom (address ++ [i]) n parents t ht
    · exact isChain_focusAmong address (i + 1) (n + t.byteLength) parents ts hts f hf

end

theorem isChain_focus (root : Tree) (pos : Nat) (side : Side) :
    (root.focus pos side).chain.IsChain fun l p => l ∈ p.children :=
  isChain_focusFrom [] 0 [] root (List.isChain_singleton _)

end Descent

end Tree

end LosslessYaml
