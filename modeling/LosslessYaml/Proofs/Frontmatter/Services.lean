import LosslessYaml.Proofs.Frontmatter.Fences
import LosslessYaml.Proofs.Text.Place

namespace LosslessYaml

open Text

namespace Document

theorem sub_append {d : Document} {u v w : List Char} {tab : Nat}
    (h : d = (ofText (u ++ v ++ w)).withTabSize tab) :
    d.sub (byteLength u) (byteLength (u ++ v)) = .ok ((ofText v).withTabSize tab) := by
  subst h
  have hs := slice_append (d := (ofText (u ++ v ++ w)).withTabSize tab) (w := w) rfl
  rw [sub, hs]
  rfl

end Document

namespace Language

def indentAlone (l : Language) (s : List Char) (tab pos unit : Nat) : Except Fault (Option Nat) :=
  l.indent (l.parse s) ((Document.ofText s).withTabSize tab) pos unit

def foldsAlone (l : Language) (s : List Char) (tab : Nat) : List Fold :=
  l.folds (l.parse s) ((Document.ofText s).withTabSize tab)

end Language

namespace Mixed

def Shallow (t : Tree) : Prop := t.isNode = true ∧ ∀ c ∈ t.children, c.isNode = false

variable {nest : Located → Option Language}

theorem askedAmong_leaves (address : List Nat) (i n : Nat) {ts : List Tree}
    (h : ∀ t ∈ ts, t.isNode = false) : askedAmong nest address i n ts = [] := by
  induction ts generalizing i n with
  | nil => rfl
  | cons t ts ih =>
    rw [askedAmong, ih _ _ fun x hx => h x (List.mem_cons_of_mem _ hx)]
    cases t with
    | leaf t => rfl
    | node k cs => exact absurd (h _ List.mem_cons_self) (by simp [Tree.isNode])

theorem askedFrom_shallow (address : List Nat) (n : Nat) {t : Tree} (h : Shallow t) :
    askedFrom nest address n t = [⟨address, n, t⟩] := by
  cases t with
  | leaf t => exact absurd h.1 (by simp [Tree.isNode])
  | node k cs =>
    have hcs : askedAmong nest address 0 n cs = [] := askedAmong_leaves address 0 n h.2
    rw [askedFrom, hcs]
    split <;> rfl

theorem askedAmong_shallow (address : List Nat) (i n : Nat) {ts : List Tree}
    (h : ∀ t ∈ ts, Shallow t) : askedAmong nest address i n ts = Located.childrenFrom address i n ts := by
  induction ts generalizing i n with
  | nil => rfl
  | cons t ts ih =>
    rw [askedAmong, askedFrom_shallow _ _ (h t List.mem_cons_self),
      ih _ _ fun x hx => h x (List.mem_cons_of_mem _ hx)]
    rfl

end Mixed

namespace Frontmatter

theorem shallow_textNode (k : Kind) (s : List Char) : Mixed.Shallow (textNode k s) := by
  refine ⟨rfl, ?_⟩
  cases s <;> simp [textNode, leaf?, Tree.children, Tree.isNode]

theorem shallow_dashLine (l : List Char) : Mixed.Shallow (dashLine l) := by
  refine ⟨rfl, ?_⟩
  intro c hc
  rcases List.mem_cons.1 hc with rfl | hc
  · rfl
  · rw [leaf?] at hc
    split at hc
    · cases hc
    · rw [List.mem_singleton.1 hc, Tree.isNode]

theorem shallow_children (s : List Char) : ∀ t ∈ (parse s).children, Mixed.Shallow t := by
  cases h : ofText? s with
  | none => simp [children_of_none h, shallow_textNode]
  | some f => simp [children_of_some h, children, shallow_textNode, shallow_dashLine]

theorem mounts_parse (l : FrontmatterLanguage) (s : List Char) :
    (l.parse s).mounts =
      (parse s).located.children.filterMap fun n => (l.nest n).map (Mixed.mount n) := by
  have ha : Mixed.asked l.nest (parse s) = ⟨[], 0, parse s⟩ :: (parse s).located.children := by
    have hc : Mixed.askedAmong l.nest [] 0 0 (parse s).children = _ :=
      Mixed.askedAmong_shallow [] 0 0 (shallow_children s)
    exact congrArg (⟨[], 0, parse s⟩ :: ·) hc
  have hm : (l.parse s).mounts =
      (Mixed.asked l.nest (parse s)).filterMap fun n => (l.nest n).map (Mixed.mount n) := rfl
  rw [hm, ha]
  rfl

theorem mount_textNode (address : List Nat) (n : Nat) (k : Kind) (s : List Char) (l : Language) :
    Mixed.mount ⟨address, n, textNode k s⟩ l = ⟨n, n + byteLength s, l, l.parse s⟩ := by
  rw [Mixed.mount, Located.stop, text_textNode, byteLength_textNode]

section Mounts

variable {s : List Char} {f : Frontmatter}

theorem mounts_of_some (l : FrontmatterLanguage) (h : ofText? s = some f) :
    (l.parse s).mounts =
      [⟨byteLength f.opening, byteLength (f.opening ++ f.content), .yaml,
          Language.yaml.parse f.content⟩,
        ⟨byteLength (f.opening ++ f.content ++ f.closing), byteLength s, l.content,
          l.content.parse f.body⟩] := by
  have hdash (address : List Nat) (n : Nat) (x : List Char) :
      l.nest ⟨address, n, dashLine x⟩ = none := rfl
  have hcontent (address : List Nat) (n : Nat) (x : List Char) :
      l.nest ⟨address, n, textNode .frontmatterContent x⟩ = some .yaml := rfl
  have hbody (address : List Nat) (n : Nat) (x : List Char) :
      l.nest ⟨address, n, textNode .body x⟩ = some l.content := rfl
  have hs := congrArg byteLength (fenced_of_ofText? h).text
  rw [mounts_parse, located_of_some h, hs]
  simp [hdash, hcontent, hbody, mount_textNode, Nat.add_assoc]

end Mounts

section Services

variable {s : List Char} {f : Frontmatter} (h : ofText? s = some f) (l : FrontmatterLanguage)
  (tab : Nat)
include h

theorem sub_content : ((Document.ofText s).withTabSize tab).sub (byteLength f.opening)
    (byteLength (f.opening ++ f.content)) = .ok ((Document.ofText f.content).withTabSize tab) := by
  have hs := (fenced_of_ofText? h).text
  apply Document.sub_append (w := f.closing ++ f.body)
  rw [hs, List.append_assoc _ f.closing]

theorem sub_body : ((Document.ofText s).withTabSize tab).sub
    (byteLength (f.opening ++ f.content ++ f.closing)) (byteLength s) =
      .ok ((Document.ofText f.body).withTabSize tab) := by
  have hs := (fenced_of_ofText? h).text
  rw [hs]
  apply Document.sub_append (w := [])
  rw [List.append_nil]

theorem indent_of_some {pos : Nat} (hp : pos ≤ byteLength s) (unit : Nat) :
    (l.parse s).indent ((Document.ofText s).withTabSize tab) pos unit =
      if byteLength f.opening ≤ pos ∧ pos ≤ byteLength (f.opening ++ f.content) then
        Language.yaml.indentAlone f.content tab (pos - byteLength f.opening) unit
      else if byteLength (f.opening ++ f.content ++ f.closing) ≤ pos then
        l.content.indentAlone f.body tab (pos - byteLength (f.opening ++ f.content ++ f.closing)) unit
      else .ok none := by
  rw [Mixed.indent, mounts_of_some l h]
  by_cases hc : byteLength f.opening ≤ pos ∧ pos ≤ byteLength (f.opening ++ f.content)
  · rw [if_pos hc, List.find?_cons_of_pos (by simpa [Mount.holds] using hc)]
    simp only [sub_content h tab]
    rfl
  · rw [if_neg hc, List.find?_cons_of_neg (by simpa [Mount.holds] using hc)]
    by_cases hb : byteLength (f.opening ++ f.content ++ f.closing) ≤ pos
    · rw [if_pos hb, List.find?_cons_of_pos (by simpa [Mount.holds, hp] using hb)]
      simp only [sub_body h tab]
      rfl
    · rw [if_neg hb, List.find?_cons_of_neg
        (by simp only [Mount.holds, Bool.and_eq_true, decide_eq_true_eq]; omega)]
      rfl

theorem folds_of_some :
    (l.parse s).folds ((Document.ofText s).withTabSize tab) =
      .ok ((Language.yaml.foldsAlone f.content tab).map (Fold.shift (byteLength f.opening)) ++
        (l.content.foldsAlone f.body tab).map
          (Fold.shift (byteLength (f.opening ++ f.content ++ f.closing)))) := by
  rw [Mixed.folds, mounts_of_some l h]
  simp only [List.mapM_cons, List.mapM_nil, Mixed.foldsOf, sub_content h tab, sub_body h tab]
  exact congrArg Except.ok (by simp [Language.foldsAlone])

end Services

theorem unfenced_of_split {s : List Char} (h : ∀ l ∈ Line.split s, isFence l = false) :
    Unfenced s := by
  rintro u l v rfl hu hl
  obtain ⟨ls, hs, -, -⟩ := Line.split_append hu (l ++ v)
  obtain ⟨rest, hrest, -⟩ := split_fence hl
  have hf := h l (by rw [List.append_assoc, hs, hrest]; simp)
  rw [hl.isFence] at hf
  cases hf

/-- A document of an opening dash line, metadata, a closing dash line and a body answers in the metadata as
the metadata alone does, in the body as the body alone does, and on the dash lines not at all. -/
theorem services_cross_fences (opening content closing body : List Char) (ho : BrokenFence opening)
    (hc : AtLineStart content) (hu : Unfenced content) (hz : Fence closing body)
    (l : FrontmatterLanguage) (tab : Nat) :
    (∀ unit pos, pos ≤ byteLength (opening ++ content ++ closing ++ body) →
      (l.parse (opening ++ content ++ closing ++ body)).indent
          ((Document.ofText (opening ++ content ++ closing ++ body)).withTabSize tab) pos unit =
        if byteLength opening ≤ pos ∧ pos ≤ byteLength (opening ++ content) then
          Language.yaml.indentAlone content tab (pos - byteLength opening) unit
        else if byteLength (opening ++ content ++ closing) ≤ pos then
          l.content.indentAlone body tab (pos - byteLength (opening ++ content ++ closing)) unit
        else .ok none) ∧
    (l.parse (opening ++ content ++ closing ++ body)).folds
        ((Document.ofText (opening ++ content ++ closing ++ body)).withTabSize tab) =
      .ok ((Language.yaml.foldsAlone content tab).map (Fold.shift (byteLength opening)) ++
        (l.content.foldsAlone body tab).map
          (Fold.shift (byteLength (opening ++ content ++ closing)))) := by
  have h : ofText? (opening ++ content ++ closing ++ body) = some ⟨opening, content, closing, body⟩ :=
    ofText?_of_fenced ⟨rfl, ho, hc, hz⟩ hu
  exact ⟨fun unit pos hp => indent_of_some h l tab hp unit, folds_of_some h l tab⟩

theorem services_cross_fences_crlf :
    Unfenced ['a', ':', '\r', '\n', ' ', '[', '\n'] ∧
      ((FrontmatterLanguage.mk .text).parse (['-', '-', '-', '\r', '\n'] ++
          ['a', ':', '\r', '\n', ' ', '[', '\n'] ++ ['-', '-', '-'] ++ [])).indent
        ((Document.ofText (['-', '-', '-', '\r', '\n'] ++
          ['a', ':', '\r', '\n', ' ', '[', '\n'] ++ ['-', '-', '-'] ++ [])).withTabSize 4) 11 2 =
      Language.yaml.indentAlone ['a', ':', '\r', '\n', ' ', '[', '\n'] 4 6 2 ∧
      Language.yaml.indentAlone ['a', ':', '\r', '\n', ' ', '[', '\n'] 4 6 2 = .ok (some 3) := by
  have hu : Unfenced ['a', ':', '\r', '\n', ' ', '[', '\n'] := unfenced_of_split (by decide)
  have h := services_cross_fences ['-', '-', '-', '\r', '\n'] _ ['-', '-', '-'] [] (.inr rfl)
    (.inr ⟨['a', ':', '\r', '\n', ' ', '['], rfl⟩) hu (.inr ⟨rfl, rfl⟩) ⟨.text⟩ 4
  exact ⟨hu, (h.1 2 11 (by decide)).trans (if_pos (by decide)), by with_unfolding_all rfl⟩

end Frontmatter

end LosslessYaml
