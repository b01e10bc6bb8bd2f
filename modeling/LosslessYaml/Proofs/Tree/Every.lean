import LosslessYaml.Tree.Located

namespace LosslessYaml

namespace Tree

variable {P Q : List Char → Tree → Prop}

def forestText (ts : List Tree) : List Char := Token.textOf (leavesOf ts)

@[simp] theorem forestText_nil : forestText [] = [] := rfl

@[simp] theorem forestText_cons (t : Tree) (ts : List Tree) :
    forestText (t :: ts) = t.text ++ forestText ts := by
  simp [forestText, leavesOf, text]

@[simp] theorem forestText_append (ts us : List Tree) :
    forestText (ts ++ us) = forestText ts ++ forestText us := by
  simp [forestText]

@[simp] theorem text_node (k : Kind) (cs : List Tree) : (node k cs).text = forestText cs := by
  simp [text, leaves, forestText]

@[simp] theorem text_leaf (t : Token) : (leaf t).text = t.text := by
  simp [text, leaves]

mutual

/-- `P` holds of a tree that stands after the text `u`, and of all its parts. -/
def Every (P : List Char → Tree → Prop) (u : List Char) : Tree → Prop
  | .leaf t => P u (.leaf t)
  | .node k cs => P u (.node k cs) ∧ EveryOf P u cs

def EveryOf (P : List Char → Tree → Prop) (u : List Char) : List Tree → Prop
  | [] => True
  | t :: ts => t.Every P u ∧ EveryOf P (u ++ t.text) ts

end

/-- `P` holds of the trees of a forest that stands after the text `u`, but maybe not of their parts. -/
def Each (P : List Char → Tree → Prop) (u : List Char) : List Tree → Prop
  | [] => True
  | t :: ts => P u t ∧ Each P (u ++ t.text) ts

theorem everyOf_append {u : List Char} {ts us : List Tree} :
    EveryOf P u (ts ++ us) ↔ EveryOf P u ts ∧ EveryOf P (u ++ forestText ts) us := by
  induction ts generalizing u with
  | nil => simp [EveryOf]
  | cons t ts ih => simp [EveryOf, ih, and_assoc]

theorem each_append {u : List Char} {ts us : List Tree} :
    Each P u (ts ++ us) ↔ Each P u ts ∧ Each P (u ++ forestText ts) us := by
  induction ts generalizing u with
  | nil => simp [Each]
  | cons t ts ih => simp [Each, ih, and_assoc]

mutual

theorem Every.imp (h : ∀ u t, P u t → Q u t) {u : List Char} :
    ∀ {t : Tree}, t.Every P u → t.Every Q u
  | .leaf _, ht => h _ _ ht
  | .node _ _, ht => ⟨h _ _ ht.1, EveryOf.imp h ht.2⟩

theorem EveryOf.imp (h : ∀ u t, P u t → Q u t) {u : List Char} :
    ∀ {ts : List Tree}, EveryOf P u ts → EveryOf Q u ts
  | [], _ => trivial
  | _ :: _, hts => ⟨Every.imp h hts.1, EveryOf.imp h hts.2⟩

end

theorem Each.imp (h : ∀ u t, P u t → Q u t) {u : List Char} {ts : List Tree} (hts : Each P u ts) :
    Each Q u ts := by
  induction ts generalizing u with
  | nil => trivial
  | cons t ts ih => exact ⟨h u t hts.1, ih hts.2⟩

theorem Every.self {u : List Char} {t : Tree} (h : t.Every P u) : P u t := by
  cases t with
  | leaf t => exact h
  | node k cs => exact h.1

theorem EveryOf.each {u : List Char} {ts : List Tree} (h : EveryOf P u ts) :
    Each (fun u t => t.Every P u) u ts := by
  induction ts generalizing u with
  | nil => trivial
  | cons t ts ih => exact ⟨h.1, ih h.2⟩

theorem everyOf_leaves (h : ∀ u t, P u (.leaf t)) {ts : List Tree}
    (hts : ∀ t ∈ ts, t.isNode = false)
    (u : List Char) : EveryOf P u ts := by
  induction ts generalizing u with
  | nil => trivial
  | cons t ts ih =>
    cases t with
    | leaf t => exact ⟨h u t, ih (fun x hx => hts x (List.mem_cons_of_mem _ hx)) _⟩
    | node k cs => exact absurd (hts (.node k cs) List.mem_cons_self) (by simp [isNode])

end Tree

def Located.After (v s : List Char) (l : Located) : Prop :=
  Text.byteLength v = l.start ∧ ∃ w, s = v ++ l.tree.text ++ w

theorem Located.After.extend {v s : List Char} {l : Located} (h : l.After v s) (w : List Char) :
    l.After v (s ++ w) := by
  obtain ⟨hv, x, rfl⟩ := h
  exact ⟨hv, x ++ w, by simp only [List.append_assoc]⟩

namespace Tree

variable {P : List Char → Tree → Prop}

theorem after_self (address : List Nat) (u : List Char) (t : Tree) (w : List Char) :
    Located.After u (u ++ t.text ++ w) ⟨address, Text.byteLength u, t⟩ :=
  ⟨rfl, w, rfl⟩

theorem byteLength_append_text (u : List Char) (t : Tree) :
    Text.byteLength u + t.byteLength = Text.byteLength (u ++ t.text) := by
  rw [Text.byteLength_append, byteLength_eq]

theorem append_forestText_cons (u : List Char) (t : Tree) (ts : List Tree) :
    u ++ forestText (t :: ts) = u ++ t.text ++ forestText ts := by
  rw [forestText_cons, List.append_assoc]

mutual

theorem Every.preorderFrom : ∀ {t : Tree} {u : List Char} (address : List Nat), t.Every P u →
    ∀ l ∈ t.preorderFrom address (Text.byteLength u), ∃ v, l.After v (u ++ t.text) ∧ P v l.tree
  | .leaf t, u, address, h, l, hl => by
    simp only [Tree.preorderFrom, List.mem_singleton] at hl
    subst hl
    exact ⟨u, ⟨rfl, [], by simp⟩, h⟩
  | .node k cs, u, address, h, l, hl => by
    simp only [Tree.preorderFrom, List.mem_cons] at hl
    rcases hl with rfl | hl
    · exact ⟨u, ⟨rfl, [], by simp⟩, h.1⟩
    · rw [text_node]
      exact EveryOf.preorderOf address 0 h.2 l hl

theorem EveryOf.preorderOf :
    ∀ {ts : List Tree} {u : List Char} (address : List Nat) (i : Nat), EveryOf P u ts →
    ∀ l ∈ preorderOf address i (Text.byteLength u) ts, ∃ v, l.After v (u ++ forestText ts) ∧
    P v l.tree
  | [], u, address, i, h, l, hl => by simp [Tree.preorderOf] at hl
  | t :: ts, u, address, i, h, l, hl => by
    simp only [Tree.preorderOf, List.mem_append] at hl
    rw [append_forestText_cons]
    rcases hl with hl | hl
    · obtain ⟨v, hv, hp⟩ := Every.preorderFrom _ h.1 l hl
      exact ⟨v, hv.extend _, hp⟩
    · rw [byteLength_append_text] at hl
      exact EveryOf.preorderOf address (i + 1) h.2 l hl

end

theorem Each.childrenFrom {ts : List Tree} {u : List Char} (address : List Nat) (i : Nat)
    (h : Each P u ts) :
    ∀ l ∈ Located.childrenFrom address i (Text.byteLength u) ts, ∃ v,
    l.After v (u ++ forestText ts) ∧ P v l.tree := by
  induction ts generalizing u i with
  | nil => simp [Located.childrenFrom]
  | cons t ts ih =>
    intro l hl
    rw [append_forestText_cons]
    rcases List.mem_cons.1 hl with rfl | hl
    · exact ⟨u, after_self _ u t _, h.1⟩
    · rw [byteLength_append_text] at hl
      exact ih (i + 1) h.2 l hl

end Tree

end LosslessYaml
