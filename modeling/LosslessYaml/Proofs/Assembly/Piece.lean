import LosslessYaml.Proofs.Assembly.Call
import Mathlib.Data.List.Basic

namespace LosslessYaml

inductive Piece : Type
  | slot (m : Nat) (opens : List Nat)
  | token (t : Token)
  | finish (m : Nat) (k : Kind)
  deriving DecidableEq

namespace Piece

def parens : Piece → List Paren
  | .slot _ opens => opens.reverse.map .opening
  | .token t => [.token t]
  | .finish m k => [.closing m k]

def token? : Piece → Option Token
  | .token t => some t
  | _ => none

theorem map_eq_modify {f g : Piece → Event} {u : Event → Event} {ps : List Piece} {i : Nat} {p : Piece}
    (hi : ps[i]? = some p) (hp : g p = u (f p)) (h : ∀ j q, j ≠ i → ps[j]? = some q → g q = f q) :
    ps.map g = (ps.map f).modify i u := by
  apply List.ext_getElem?
  intro j
  rw [List.getElem?_modify, List.getElem?_map, List.getElem?_map]
  by_cases hij : i = j
  · subst hij
    simp [hi, hp]
  · cases hj : ps[j]? with
    | none => rfl
    | some q => simp [hij, h j q (Ne.symm hij) hj]

end Piece

namespace Sketch

def start (m : Nat) (s : Sketch) : Sketch := ⟨(m, s.here) :: s.outer, []⟩

theorem readAll?_openings (ms : List Nat) (bs : List Paren) (s : Sketch) :
    readAll? (ms.reverse.map .opening ++ bs) s = readAll? bs (ms.foldr start s) := by
  induction ms generalizing bs with
  | nil => rfl
  | cons m ms ih =>
    rw [List.reverse_cons, List.map_append, List.append_assoc, ih]
    rfl

end Sketch

namespace Event

theorem replayFrom_start {b : Nat} {ts : List Token} {s : Scaffold} {k : Kind} {w : Option Nat} {es rest : List Event}
    {ks : List Kind} (h : takeWrappers (b + 1) es.length w es = .ok (ks, rest)) :
    replayFrom b ts s (.start k w :: es) = replayFrom (b + 1) ts ((k :: ks).foldr Scaffold.start s) rest := by
  rw [replayFrom]
  split
  · next e he =>
    rw [h] at he
    cases he
  · next ls r hr =>
    rw [h] at hr
    cases hr
    rfl

end Event

structure Record : Type where
  pieces : List Piece := []
  index : Nat → Nat := fun _ => 0
  kind : Nat → Option Kind := fun _ => none
  wrapper : Nat → Option Nat := fun _ => none

def Linked (wrapper : Nat → Option Nat) (m : Nat) : List Nat → Prop
  | [] => wrapper m = none
  | n :: ns => wrapper m = some n ∧ Linked wrapper n ns

namespace Record

def event (r : Record) (taken : List Nat) : Piece → Event
  | .slot m _ =>
    match if m ∈ taken then none else r.kind m with
    | none => .placeholder
    | some k => .start k ((r.wrapper m).map r.index)
  | .token t => .token t.kind
  | .finish _ _ => .finish

def scaffold (r : Record) (s : Sketch) : Scaffold :=
  ⟨s.outer.map fun o => ((r.kind o.1).getD .error, o.2), s.here⟩

theorem scaffold_foldr_start (r : Record) (ms : List Nat) (s : Sketch) :
    r.scaffold (ms.foldr Sketch.start s) =
      (ms.map fun m => (r.kind m).getD .error).foldr Scaffold.start (r.scaffold s) := by
  induction ms with
  | nil => rfl
  | cons m ms ih =>
    rw [List.foldr_cons, List.map_cons, List.foldr_cons, ← ih]
    rfl

def Stands (r : Record) (m : Nat) : Prop :=
  (∃ o, r.pieces[r.index m]? = some (.slot m o)) ∧ (r.kind m).isSome = true

/-- A record that is not added to any more: a mark opens nothing if it was given up or is around another one, and
otherwise itself and all that are around it. -/
structure Settled (r : Record) : Prop where
  index : ∀ {i m o}, r.pieces[i]? = some (.slot m o) → r.index m = i
  kind : ∀ {m k}, .finish m k ∈ r.pieces → r.kind m = some k
  stands : ∀ {m n}, r.wrapper m = some n → r.Stands m ∧ r.Stands n
  lt : ∀ {m n}, r.wrapper m = some n → r.index m < r.index n
  injective : ∀ {m n l}, r.wrapper m = some l → r.wrapper n = some l → m = n
  opens : ∀ {m o}, .slot m o ∈ r.pieces →
    o = [] ∧ (r.kind m = none ∨ ∃ x, r.wrapper x = some m) ∨
      (r.kind m).isSome = true ∧ (∀ x, r.wrapper x ≠ some m) ∧ ∃ ns, o = m :: ns ∧ Linked r.wrapper m ns

variable {r : Record}

namespace Settled

theorem index_lt_of_linked (hr : r.Settled) {m n : Nat} {ns : List Nat} (h : Linked r.wrapper m ns) (hn : n ∈ ns) :
    r.index m < r.index n := by
  induction ns generalizing m with
  | nil => exact absurd hn List.not_mem_nil
  | cons l ns ih =>
    rcases List.mem_cons.1 hn with rfl | hn
    · exact hr.lt h.1
    · exact Nat.lt_trans (hr.lt h.1) (ih h.2 hn)

theorem set_event (hr : r.Settled) {b : Nat} {ps : List Piece} (hp : r.pieces.drop b = ps) {m : Nat} {o : List Nat}
    {i : Nat} (h : ps[i]? = some (.slot m o)) (taken : List Nat) :
    (ps.map (r.event taken)).set i .placeholder = ps.map (r.event (m :: taken)) := by
  have hindex : ∀ {j p}, ps[j]? = some p → r.pieces[b + j]? = some p := by
    intro j p hj
    rwa [← hp, List.getElem?_drop] at hj
  rw [List.set_eq_modify]
  refine (Piece.map_eq_modify h (by simp [event]) fun j q hij hj => ?_).symm
  cases q with
  | token t => rfl
  | finish n k => rfl
  | slot n o' =>
    have hne : n ≠ m := by
      rintro rfl
      have := hr.index (hindex h)
      have := hr.index (hindex hj)
      omega
    simp [event, hne]

end Settled

theorem takeWrappers_linked (hr : r.Settled) {b : Nat} {ps : List Piece} (hp : r.pieces.drop b = ps) {m : Nat}
    {ns : List Nat} (h : Linked r.wrapper m ns) {taken : List Nat} (hns : ∀ n ∈ ns, n ∉ taken)
    (hm : b ≤ r.index m + 1) (fuel : Nat) (hfuel : r.pieces.length ≤ fuel + r.index m + 1) :
    Event.takeWrappers b fuel ((r.wrapper m).map r.index) (ps.map (r.event taken)) =
      .ok (ns.map fun n => (r.kind n).getD .error, ps.map (r.event (ns.reverse ++ taken))) := by
  induction ns generalizing m taken fuel with
  | nil =>
    have hnone : r.wrapper m = none := h
    simp [hnone, Event.takeWrappers]
  | cons n ns ih =>
    obtain ⟨hw, hl⟩ := h
    obtain ⟨⟨o, ho⟩, hkind⟩ := (hr.stands hw).2
    obtain ⟨k, hk⟩ := Option.isSome_iff_exists.1 hkind
    have hlt := hr.lt hw
    have hlen : r.index n < r.pieces.length := (List.getElem?_eq_some_iff.1 ho).1
    have hle : b ≤ r.index n := by omega
    have hn : ps[r.index n - b]? = some (.slot n o) := by
      rwa [← hp, List.getElem?_drop, Nat.add_sub_cancel' hle]
    have hfresh : ∀ l ∈ ns, l ∉ n :: taken := by
      intro l hl' hmem
      rcases List.mem_cons.1 hmem with rfl | hmem
      · exact Nat.lt_irrefl _ (hr.index_lt_of_linked hl hl')
      · exact hns l (List.mem_cons_of_mem n hl') hmem
    -- every wrapper stands behind the mark it is around, so the steps suffice
    cases fuel with
    | zero => omega
    | succ fuel =>
      have hrest := ih hl hfresh (by omega) fuel (by omega)
      rw [hw, Option.map_some, Event.takeWrappers, if_pos hle, List.getElem?_map, hn, Option.map_some, event,
        if_neg (hns n List.mem_cons_self), hk]
      simp only [hr.set_event hp hn, hrest]
      simp [hk]

/-- The marks taken out before the piece at `b`: all that are around a mark that stands in front of it. -/
structure Taken (r : Record) (b : Nat) (taken : List Nat) : Prop where
  inner : ∀ n ∈ taken, ∃ x, r.wrapper x = some n
  iff : ∀ {x n}, r.wrapper x = some n → (n ∈ taken ↔ x ∈ taken ∨ r.index x < b)

namespace Taken

theorem zero (r : Record) : r.Taken 0 [] := ⟨by simp, by simp⟩

variable {b m : Nat} {taken : List Nat}

theorem succ (h : r.Taken b taken) (hb : ∀ {x n}, r.wrapper x = some n → r.index x = b → x ∈ taken) :
    r.Taken (b + 1) taken := by
  refine ⟨h.inner, fun {x n} hx => ?_⟩
  rw [h.iff hx]
  constructor
  · exact Or.imp_right fun hlt => Nat.lt_succ_of_lt hlt
  · rintro (hmem | hlt)
    · exact .inl hmem
    · rcases Nat.lt_succ_iff_lt_or_eq.1 hlt with hlt | heq
      · exact .inr hlt
      · exact .inl (hb hx heq)

theorem mem_linked (hr : r.Settled) {ns : List Nat} (h : Linked r.wrapper m ns) {x n : Nat}
    (hx : r.wrapper x = some n) : n ∈ ns ↔ x = m ∨ x ∈ ns := by
  induction ns generalizing m with
  | nil =>
    have hm : r.wrapper m = none := h
    refine iff_of_false List.not_mem_nil ?_
    rintro (rfl | hmem)
    · rw [hm] at hx
      cases hx
    · exact absurd hmem List.not_mem_nil
  | cons l ns ih =>
    obtain ⟨hw, hl⟩ := h
    have hhead : n = l ↔ x = m := by
      constructor
      · rintro rfl
        exact hr.injective hx hw
      · rintro rfl
        exact Option.some.inj (hx.symm.trans hw)
    rw [List.mem_cons, List.mem_cons, hhead, ih hl]

theorem exists_of_linked {ns : List Nat} (h : Linked r.wrapper m ns) {n : Nat} (hn : n ∈ ns) :
    ∃ x, r.wrapper x = some n := by
  induction ns generalizing m with
  | nil => exact absurd hn List.not_mem_nil
  | cons l ns ih =>
    rcases List.mem_cons.1 hn with rfl | hn
    · exact ⟨m, h.1⟩
    · exact ih h.2 hn

theorem links (hr : r.Settled) (h : r.Taken (r.index m) taken) {ns : List Nat} (hl : Linked r.wrapper m ns)
    (hm : ∀ {x n}, r.wrapper x = some n → r.index x = r.index m → x = m) :
    r.Taken (r.index m + 1) (ns.reverse ++ taken) := by
  refine ⟨fun n hn => ?_, fun {x n} hx => ?_⟩
  · rcases List.mem_append.1 hn with hn | hn
    · exact exists_of_linked hl (List.mem_reverse.1 hn)
    · exact h.inner n hn
  · have heq : r.index x < r.index m + 1 ↔ r.index x < r.index m ∨ x = m := by
      rw [Nat.lt_succ_iff_lt_or_eq]
      refine or_congr_right ⟨hm hx, fun h => h ▸ rfl⟩
    rw [List.mem_append, List.mem_append, List.mem_reverse, List.mem_reverse, mem_linked hr hl hx, h.iff hx, heq]
    grind

theorem not_mem_of_linked (hr : r.Settled) (h : r.Taken b taken) {ns : List Nat} (hl : Linked r.wrapper m ns)
    (hm : m ∉ taken) (hb : b ≤ r.index m) : ∀ n ∈ ns, n ∉ taken := by
  induction ns generalizing m with
  | nil => simp
  | cons l ns ih =>
    obtain ⟨hw, hl⟩ := hl
    have hlt := hr.lt hw
    have hl' : l ∉ taken := by
      rw [h.iff hw]
      exact not_or.2 ⟨hm, Nat.not_lt.2 hb⟩
    intro n hn
    rcases List.mem_cons.1 hn with rfl | hn
    · exact hl'
    · exact ih hl hl' (by omega) n hn

end Taken

theorem getElem?_of_drop {b : Nat} {p : Piece} {ps : List Piece} (hp : r.pieces.drop b = p :: ps) :
    r.pieces[b]? = some p := by
  rw [← List.head?_drop, hp]
  rfl

theorem drop_succ_of_drop {b : Nat} {p : Piece} {ps : List Piece} (hp : r.pieces.drop b = p :: ps) :
    r.pieces.drop (b + 1) = ps := by
  rw [← List.tail_drop, hp]
  rfl

theorem Settled.eq_slot (hr : r.Settled) {b : Nat} {p : Piece} {ps : List Piece} (hp : r.pieces.drop b = p :: ps)
    {x n : Nat} (hx : r.wrapper x = some n) (hi : r.index x = b) : ∃ o, p = .slot x o := by
  obtain ⟨o, ho⟩ := (hr.stands hx).1.1
  rw [hi, getElem?_of_drop hp] at ho
  exact ⟨o, Option.some.inj ho⟩

/-- From index `b` on, the parentheses of the pieces lead to `t`, and so do their events. -/
def Replays (r : Record) (us : List Token) (t : Sketch) (b : Nat) (ps : List Piece) : Prop :=
  ∀ (taken : List Nat) (s : Sketch), r.Taken b taken → Sketch.readAll? (ps.flatMap Piece.parens) s = some t →
    Event.replayFrom b (ps.filterMap Piece.token? ++ us) (r.scaffold s) (ps.map (r.event taken)) = .ok (r.scaffold t)

namespace Replays

variable {us : List Token} {t : Sketch} {b : Nat} {ps : List Piece}

theorem token (hr : r.Settled) {u : Token} (hp : r.pieces.drop b = .token u :: ps)
    (h : r.Replays us t (b + 1) ps) : r.Replays us t b (.token u :: ps) := by
  intro taken s htaken hread
  have hsucc : r.Taken (b + 1) taken := htaken.succ fun hx hi => by
    obtain ⟨o, ho⟩ := hr.eq_slot hp hx hi
    cases ho
  simp only [List.filterMap_cons, Piece.token?, List.cons_append, List.map_cons, event, Event.replayFrom]
  exact h _ _ hsucc hread

theorem finish?_scaffold {s s' : Sketch} {m : Nat} {k : Kind} (hk : r.kind m = some k)
    (h : s.read? (.closing m k) = some s') : (r.scaffold s).finish? = some (r.scaffold s') := by
  rw [Sketch.read?] at h
  split at h
  · cases h
  · next n before outer houter =>
    split at h
    · next hn =>
      cases h
      simp [scaffold, Scaffold.finish?, houter, hn, hk]
    · cases h

theorem finish (hr : r.Settled) {m : Nat} {k : Kind} (hp : r.pieces.drop b = .finish m k :: ps)
    (h : r.Replays us t (b + 1) ps) : r.Replays us t b (.finish m k :: ps) := by
  intro taken s htaken hread
  have hsucc : r.Taken (b + 1) taken := htaken.succ fun hx hi => by
    obtain ⟨o, ho⟩ := hr.eq_slot hp hx hi
    cases ho
  have hk : r.kind m = some k := hr.kind (List.mem_of_getElem? (getElem?_of_drop hp))
  obtain ⟨s', hs', hread⟩ := Option.bind_eq_some_iff.1 hread
  simp only [List.filterMap_cons, Piece.token?, List.map_cons, event, Event.replayFrom, finish?_scaffold hk hs']
  exact h _ _ hsucc hread

theorem slot_nil (hr : r.Settled) {m : Nat} (hp : r.pieces.drop b = .slot m [] :: ps)
    (hm : r.kind m = none ∨ ∃ x, r.wrapper x = some m) (h : r.Replays us t (b + 1) ps) :
    r.Replays us t b (.slot m [] :: ps) := by
  intro taken s htaken hread
  have hindex : r.index m = b := hr.index (getElem?_of_drop hp)
  have hmem : ∀ {x}, r.wrapper x = some m → m ∈ taken := fun hx => (htaken.iff hx).2 (.inr (hindex ▸ hr.lt hx))
  have hevent : r.event taken (.slot m []) = .placeholder := by
    rcases hm with hnone | ⟨x, hx⟩
    · simp [event, hnone]
    · simp [event, hmem hx]
  have hsucc : r.Taken (b + 1) taken := htaken.succ fun {x n} hx hi => by
    obtain ⟨o, ho⟩ := hr.eq_slot hp hx hi
    cases ho
    rcases hm with hnone | ⟨y, hy⟩
    · have hstands := (hr.stands hx).1.2
      rw [hnone] at hstands
      cases hstands
    · exact hmem hy
  rw [List.map_cons, hevent, Event.replayFrom]
  exact h _ _ hsucc hread

theorem slot_cons (hr : r.Settled) {m : Nat} {ns : List Nat} (hp : r.pieces.drop b = .slot m (m :: ns) :: ps)
    (hm : (r.kind m).isSome = true) (hfree : ∀ x, r.wrapper x ≠ some m) (hl : Linked r.wrapper m ns)
    (h : r.Replays us t (b + 1) ps) : r.Replays us t b (.slot m (m :: ns) :: ps) := by
  intro taken s htaken hread
  obtain ⟨k, hk⟩ := Option.isSome_iff_exists.1 hm
  have hindex : r.index m = b := hr.index (getElem?_of_drop hp)
  have hmem : m ∉ taken := by
    intro hmem
    obtain ⟨x, hx⟩ := htaken.inner m hmem
    exact hfree x hx
  have hevent : r.event taken (.slot m (m :: ns)) = .start k ((r.wrapper m).map r.index) := by
    simp [event, hmem, hk]
  have hwrap : Event.takeWrappers (b + 1) (ps.map (r.event taken)).length ((r.wrapper m).map r.index)
      (ps.map (r.event taken)) =
        .ok (ns.map fun n => (r.kind n).getD .error, ps.map (r.event (ns.reverse ++ taken))) := by
    have hlen := congrArg List.length (drop_succ_of_drop hp)
    rw [List.length_drop] at hlen
    rw [List.length_map]
    refine takeWrappers_linked hr (drop_succ_of_drop hp) hl (htaken.not_mem_of_linked hr hl hmem ?_) ?_ _ ?_ <;> omega
  have hsucc : r.Taken (b + 1) (ns.reverse ++ taken) := by
    rw [← hindex] at htaken ⊢
    refine htaken.links hr hl fun hx hi => ?_
    obtain ⟨o, ho⟩ := hr.eq_slot hp hx (hi.trans hindex)
    cases ho
    rfl
  rw [List.flatMap_cons, Piece.parens, Sketch.readAll?_openings] at hread
  have hrest := h _ _ hsucc hread
  rw [scaffold_foldr_start, List.map_cons, hk] at hrest
  rw [List.map_cons, hevent, Event.replayFrom_start hwrap]
  exact hrest

end Replays

theorem Settled.replays (hr : r.Settled) (us : List Token) (t : Sketch) {b : Nat} {ps : List Piece}
    (hp : r.pieces.drop b = ps) : r.Replays us t b ps := by
  induction ps generalizing b with
  | nil =>
    intro taken s _ hread
    cases hread
    simp [Event.replayFrom]
  | cons p ps ih =>
    have hnext : r.Replays us t (b + 1) ps := ih (drop_succ_of_drop hp)
    cases p with
    | token u => exact Replays.token hr hp hnext
    | finish m k => exact Replays.finish hr hp hnext
    | slot m o =>
      rcases hr.opens (List.mem_of_getElem? (getElem?_of_drop hp)) with ⟨rfl, hm⟩ | ⟨hm, hfree, ns, rfl, hl⟩
      · exact Replays.slot_nil hr hp hm hnext
      · exact Replays.slot_cons hr hp hm hfree hl hnext

theorem Settled.replay_eq (hr : r.Settled) (us : List Token) {t : Tree}
    (h : (Sketch.readAll? (r.pieces.flatMap Piece.parens) {}).bind Sketch.tree? = some t) :
    Event.replay (r.pieces.filterMap Piece.token? ++ us) (r.pieces.map (r.event [])) = .ok t := by
  obtain ⟨s, hread, htree⟩ := Option.bind_eq_some_iff.1 h
  have hreplay := hr.replays us s rfl [] {} (Taken.zero r) hread
  have hempty : r.scaffold {} = {} := rfl
  rw [List.drop_zero, hempty] at hreplay
  rw [Event.replay, hreplay]
  unfold Sketch.tree? at htree
  split at htree
  · cases htree
    rfl
  · cases htree

end Record

end LosslessYaml
