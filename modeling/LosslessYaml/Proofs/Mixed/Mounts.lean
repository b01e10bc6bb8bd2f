import LosslessYaml.Mixed
import LosslessYaml.Proofs.Frontmatter.Fences
import LosslessYaml.Proofs.Lossless
import LosslessYaml.Proofs.Tree.Address
import Mathlib.Data.List.Forall2

namespace LosslessYaml

theorem Language.text_parse (l : Language) (s : List Char) : (l.parse s).text = s := by
  cases l with
  | yaml =>
    change (LosslessYaml.parse s).text = s
    rw [Tree.text, leaves_parse, Token.textOf_scan]
  | text => exact Frontmatter.text_textNode .body s
  | fences => exact Frontmatter.text_parse s

namespace Mixed

section Questions

variable {σ : Type} (ask : Located → StateM σ (Option Language))

mutual

def collectFrom (address : List Nat) (n : Nat) : Tree → StateM σ (List Mount)
  | .leaf _ => return []
  | .node k cs => do
    match ← ask ⟨address, n, .node k cs⟩ with
    | some l => return [mount ⟨address, n, .node k cs⟩ l]
    | none => collectAmong address 0 n cs

def collectAmong (address : List Nat) (i n : Nat) : List Tree → StateM σ (List Mount)
  | [] => return []
  | t :: ts => do
    let ms ← collectFrom (address ++ [i]) n t
    return ms ++ (← collectAmong address (i + 1) (n + t.byteLength) ts)

end

def collect (root : Tree) : StateM σ (List Mount) := collectFrom ask [] 0 root

end Questions

variable (nest : Located → Option Language)

/-- Answers as `nest` does, and writes the question down. -/
def recorded (n : Located) : StateM (List Located) (Option Language) := fun log => (nest n, log ++ [n])

def mountsAt (ns : List Located) : List Mount := ns.filterMap fun n => (nest n).map (mount n)

theorem mountsAt_append (ns ms : List Located) : mountsAt nest (ns ++ ms) = mountsAt nest ns ++ mountsAt nest ms :=
  List.filterMap_append

mutual

theorem collectFrom_recorded (address : List Nat) (n : Nat) (log : List Located) :
    ∀ t : Tree, collectFrom (recorded nest) address n t log =
      (mountsAt nest (askedFrom nest address n t), log ++ askedFrom nest address n t)
  | .leaf _ => by
    rw [askedFrom, List.append_nil]
    rfl
  | .node k cs => by
    have hcs := collectAmong_recorded address 0 n (log ++ [⟨address, n, .node k cs⟩]) cs
    rw [collectFrom, askedFrom]
    cases h : nest ⟨address, n, .node k cs⟩ with
    | none =>
      simp only [recorded, bind, StateT.bind, h, Option.isSome_none, Bool.false_eq_true, if_false]
      rw [hcs]
      simp [mountsAt, h]
    | some l =>
      have hmount : mountsAt nest [⟨address, n, .node k cs⟩] = [mount ⟨address, n, .node k cs⟩ l] := by
        simp [mountsAt, h]
      simp only [recorded, bind, StateT.bind, h, Option.isSome_some, if_true]
      rw [hmount]
      rfl

theorem collectAmong_recorded (address : List Nat) (i n : Nat) (log : List Located) :
    ∀ ts : List Tree, collectAmong (recorded nest) address i n ts log =
      (mountsAt nest (askedAmong nest address i n ts), log ++ askedAmong nest address i n ts)
  | [] => by
    rw [askedAmong, List.append_nil]
    rfl
  | t :: ts => by
    have ht := collectFrom_recorded (address ++ [i]) n log t
    have hts := collectAmong_recorded address (i + 1) (n + t.byteLength)
      (log ++ askedFrom nest (address ++ [i]) n t) ts
    rw [collectAmong, askedAmong]
    simp only [bind, StateT.bind, ht, hts]
    rw [mountsAt_append, ← List.append_assoc]
    rfl

end

def isFree (ns : List Located) (n : Located) : Bool := ns.all fun m => !m.isAbove n || (nest m).isNone

variable {nest}

theorem isFree_cons {m n : Located} {ns : List Located} :
    isFree nest (m :: ns) n = ((!m.isAbove n || (nest m).isNone) && isFree nest ns n) := rfl

theorem isFree_append {ns ms : List Located} {n : Located} :
    isFree nest (ns ++ ms) n = (isFree nest ns n && isFree nest ms n) := List.all_append

theorem isFree_of_not_prefix {ns : List Located} {n : Located} (h : ∀ m ∈ ns, ¬ m.address <+: n.address) :
    isFree nest ns n = true := by
  refine List.all_eq_true.2 fun m hm => ?_
  have habove : m.isAbove n = false := by
    rw [Bool.eq_false_iff, ne_eq, Located.isAbove_iff]
    exact fun ha => h m hm ha.1
  rw [habove]
  rfl

/-- Nodes apart from others are as free among all of them as among themselves. -/
theorem filter_isFree_append {ns ms : List Located} (h : ∀ n ∈ ns, ∀ m ∈ ms, ¬ n.address <+: m.address)
    (h' : ∀ n ∈ ns, ∀ m ∈ ms, ¬ m.address <+: n.address) :
    (ns ++ ms).filter (isFree nest (ns ++ ms)) =
      ns.filter (isFree nest ns) ++ ms.filter (isFree nest ms) := by
  rw [List.filter_append]
  congr 1
  · refine List.filter_congr fun n hn => ?_
    rw [isFree_append, isFree_of_not_prefix (h' n hn), Bool.and_true]
  · refine List.filter_congr fun m hm => ?_
    rw [isFree_append, isFree_of_not_prefix fun n hn => h n hn m hm, Bool.true_and]

theorem filter_isFree_below {n : Located} {ns : List Located} (h : ∀ m ∈ ns, n.isAbove m = true) :
    (n :: ns).filter (isFree nest (n :: ns)) =
      if (nest n).isSome then [n] else n :: ns.filter (isFree nest ns) := by
  have hself : n.isAbove n = false := by simp [Located.isAbove]
  have hn : isFree nest (n :: ns) n = true := by
    rw [isFree_cons, hself, isFree_of_not_prefix]
    · rfl
    · intro m hm hp
      obtain ⟨hnm, hne⟩ := Located.isAbove_iff.1 (h m hm)
      exact hne (hnm.eq_of_length_le hp.length_le)
  rw [List.filter_cons_of_pos hn]
  split
  · next hs =>
    have hnone : (nest n).isNone = false := by simpa using hs
    refine congrArg (List.cons n) (List.filter_eq_nil_iff.2 fun m hm => ?_)
    rw [isFree_cons, h m hm, hnone]
    exact Bool.false_ne_true
  · next hs =>
    have hnone : (nest n).isNone = true := by simpa using hs
    refine congrArg (List.cons n) (List.filter_congr fun m hm => ?_)
    rw [isFree_cons, hnone, Bool.or_true, Bool.true_and]

theorem isAbove_of_below {address : List Nat} {n i m : Nat} {t : Tree} {ts : List Tree} {l : Located}
    (h : l ∈ Tree.preorderOf address i m ts) : Located.isAbove ⟨address, n, t⟩ l = true := by
  refine Located.isAbove_iff.2 ⟨(Tree.within_preorderOf address i m ts l h).address, fun heq => ?_⟩
  exact Tree.below_not_prefix h (heq ▸ List.prefix_refl _)

mutual

theorem askedFrom_eq (address : List Nat) (n : Nat) : ∀ t : Tree,
    askedFrom nest address n t = ((t.preorderFrom address n).filter (·.tree.isNode)).filter
      (isFree nest ((t.preorderFrom address n).filter (·.tree.isNode)))
  | .leaf _ => rfl
  | .node k cs => by
    rw [askedFrom, Tree.preorderFrom, List.filter_cons_of_pos rfl, filter_isFree_below,
      askedAmong_eq address 0 n cs]
    intro m hm
    exact isAbove_of_below (List.mem_filter.1 hm).1

theorem askedAmong_eq (address : List Nat) (i n : Nat) : ∀ ts : List Tree,
    askedAmong nest address i n ts = ((Tree.preorderOf address i n ts).filter (·.tree.isNode)).filter
      (isFree nest ((Tree.preorderOf address i n ts).filter (·.tree.isNode)))
  | [] => rfl
  | t :: ts => by
    rw [askedAmong, Tree.preorderOf, List.filter_append, filter_isFree_append,
      askedFrom_eq (address ++ [i]) n t, askedAmong_eq address (i + 1) (n + t.byteLength) ts]
    · intro l hl m hm
      exact Tree.not_prefix_sibling (List.mem_filter.1 hl).1 (List.mem_filter.1 hm).1
    · intro l hl m hm
      exact Tree.sibling_not_prefix (List.mem_filter.1 hl).1 (List.mem_filter.1 hm).1

end

theorem asked_eq (root : Tree) : asked nest root = root.nodes.filter (isFree nest root.nodes) :=
  askedFrom_eq [] 0 root

theorem pairwise_asked (root : Tree) :
    (asked nest root).Pairwise fun n m => (nest n).isSome = true → n.stop ≤ m.start := by
  rw [asked_eq]
  refine ((root.pairwise_nodes.and root.pairwise_address).filter _).imp_of_mem ?_
  rintro n m hn hm ⟨hp, haddress⟩ hs
  rcases hp with ha | hle
  · -- a node above `m` that has a language would keep `m` from being asked
    have habove : n.isAbove m = true := by
      refine Located.isAbove_iff.2 ⟨Located.encloses_iff.1 ha.encloses, fun heq => ?_⟩
      exact haddress (heq ▸ List.prefix_refl _)
    have hfree := List.all_eq_true.1 (List.mem_filter.1 hm).2 n (List.mem_filter.1 hn).1
    simp [habove, Option.isSome_iff_ne_none.1 hs] at hfree
  · exact hle

theorem pairwise_mountsAt (root : Tree) :
    (mountsAt nest (asked nest root)).Pairwise fun m m' => m.stop ≤ m'.start := by
  refine List.pairwise_filterMap.2 ((pairwise_asked root).imp ?_)
  intro n n' h m hm m' hm'
  obtain ⟨l, hl, rfl⟩ := Option.map_eq_some_iff.1 hm
  obtain ⟨l', -, rfl⟩ := Option.map_eq_some_iff.1 hm'
  exact h (Option.isSome_of_eq_some hl)

theorem forall₂_mountsAt (ns : List Located) :
    List.Forall₂ (fun n m => nest n = some m.language ∧ m.start = n.start ∧ m.stop = n.stop)
      (ns.filter fun n => (nest n).isSome) (mountsAt nest ns) := by
  induction ns with
  | nil => exact List.Forall₂.nil
  | cons n ns ih =>
    cases h : nest n with
    | none =>
      rw [mountsAt, List.filter_cons_of_neg (by simp [h]), List.filterMap_cons_none (by simp [h])]
      exact ih
    | some l =>
      rw [mountsAt, List.filter_cons_of_pos (by simp [h]), List.filterMap_cons_some (by rw [h]; rfl)]
      exact List.Forall₂.cons ⟨h, rfl, rfl⟩ ih

theorem text_of_mem_mountsAt (root : Tree) {m : Mount} (h : m ∈ mountsAt nest (asked nest root)) :
    ∃ u v w, root.text = u ++ (v ++ w) ∧ m.start = Text.byteLength u ∧ m.stop = Text.byteLength (u ++ v) ∧
      m.tree = m.language.parse v ∧ m.tree.text = v := by
  obtain ⟨n, hn, hm⟩ := List.mem_filterMap.1 h
  obtain ⟨l, -, rfl⟩ := Option.map_eq_some_iff.1 hm
  rw [asked_eq] at hn
  obtain ⟨u, w, htext, hstart⟩ := Tree.text_of_mem_nodes (List.mem_filter.1 hn).1
  refine ⟨u, n.tree.text, w, htext, hstart, ?_, rfl, l.text_parse n.tree.text⟩
  rw [mount, Located.stop, hstart, Tree.byteLength_eq, Text.byteLength_append]

/-- The walk that builds a document of several languages asks once, in preorder, about each node that has no node with
a language above it. Those that have a language are mounted in the same order, one after the other in the text, and
each mount is what its language makes of the text between its ends. -/
theorem parse_mounts_outermost (outer : Language) (nest : Located → Option Language) (s : List Char) :
    (collect (recorded nest) (outer.parse s)).run [] =
        ((parse outer nest s).mounts, asked nest (outer.parse s)) ∧
      asked nest (outer.parse s) = (outer.parse s).nodes.filter (isFree nest (outer.parse s).nodes) ∧
      (asked nest (outer.parse s)).Nodup ∧
      List.Forall₂ (fun n m => nest n = some m.language ∧ m.start = n.start ∧ m.stop = n.stop)
        ((asked nest (outer.parse s)).filter fun n => (nest n).isSome) (parse outer nest s).mounts ∧
      (parse outer nest s).mounts.Pairwise (fun m m' => m.stop ≤ m'.start) ∧
      ∀ m ∈ (parse outer nest s).mounts, ∃ u v w, s = u ++ (v ++ w) ∧
        m.start = Text.byteLength u ∧ m.stop = Text.byteLength (u ++ v) ∧
        m.tree = m.language.parse v ∧ m.tree.text = v := by
  have hnodup : (asked nest (outer.parse s)).Nodup := by
    rw [asked_eq]
    exact (outer.parse s).nodup_nodes.filter _
  refine ⟨collectFrom_recorded nest [] 0 [] (outer.parse s), asked_eq _, hnodup, forall₂_mountsAt _,
    pairwise_mountsAt _, fun m hm => ?_⟩
  have h := text_of_mem_mountsAt (outer.parse s) hm
  rwa [outer.text_parse] at h

end Mixed

end LosslessYaml
