import LosslessYaml.Proofs.Text.Holding
import LosslessYaml.Proofs.Token.Cut

namespace LosslessYaml

namespace Text

theorem byteLength_eq_zero {s : List Char} (h : byteLength s = 0) : s = [] := by
  cases s with
  | nil => rfl
  | cons c s =>
    have hc := c.utf8Size_pos
    rw [byteLength_cons] at h
    omega

theorem length_le_byteLength (s : List Char) : s.length ≤ byteLength s := by
  induction s with
  | nil => exact Nat.le_refl 0
  | cons c s ih =>
    have hc := c.utf8Size_pos
    rw [byteLength_cons, List.length_cons]
    omega

theorem byteLength_lastLine_le (u : List Char) : byteLength (lastLine u) ≤ byteLength u := by
  obtain ⟨w, hu, -, -⟩ := exists_lastLine u
  have hlen := congrArg byteLength hu
  rw [byteLength_append] at hlen
  omega

end Text

namespace Line

theorem isPrefix_chomp {x t : List Char} (hx : '\n' ∉ x) (hp : Token.Parted x t) :
    x <+: chomp (x ++ t) := by
  rcases chomp_cases (x ++ t) with h | h | h
  · rw [← h]
    exact List.prefix_append x t
  · rcases List.append_eq_append_iff.1 h with ⟨a, ha, -⟩ | ⟨a, ha, ht⟩
    · exact ⟨a, ha.symm⟩
    · cases a with
      | nil => exact ⟨[], by simpa using ha⟩
      | cons c a =>
        obtain ⟨rfl, -⟩ := List.cons.inj ht
        exact absurd (ha ▸ by simp) hx
  · rcases List.append_eq_append_iff.1 h with ⟨a, ha, -⟩ | ⟨a, ha, ht⟩
    · exact ⟨a, ha.symm⟩
    · match a, ha, ht with
      | [], ha, _ => exact ⟨[], by simpa using ha⟩
      | [c], ha, ht =>
        obtain ⟨rfl, rfl⟩ := List.cons.inj ht
        exact absurd rfl (hp (by rw [ha]; simp))
      | c :: e :: a, ha, ht =>
        obtain ⟨-, ht⟩ := List.cons.inj ht
        obtain ⟨rfl, -⟩ := List.cons.inj ht
        exact absurd (ha ▸ by simp) hx

/-- The first line break `b` of a text, and what stands in front of it. A carriage return belongs to the line break
that it touches. -/
structure FirstBreak (t x b : List Char) : Prop where
  text : x ++ b <+: t
  before : '\n' ∉ x
  feed : b = ['\r', '\n'] ∨ b = ['\n'] ∧ x.getLast? ≠ some '\r'

theorem exists_firstBreak {t : List Char} (h : '\n' ∈ t) : ∃ x b, FirstBreak t x b := by
  obtain ⟨y, z, rfl, hy⟩ := List.eq_append_cons_of_mem h
  by_cases hr : y.getLast? = some '\r'
  · obtain ⟨x, rfl⟩ := List.getLast?_eq_some_iff.1 hr
    exact ⟨x, ['\r', '\n'], ⟨z, by simp⟩, fun hx => hy (List.mem_append_left _ hx), .inl rfl⟩
  · exact ⟨y, ['\n'], ⟨z, by simp⟩, hy, .inr ⟨rfl, hr⟩⟩

theorem chomp_crlf (x : List Char) : chomp (x ++ ['\r', '\n']) = x := by
  induction x with
  | nil => rfl
  | cons c x ih =>
    have hlen : 1 < (x ++ ['\r', '\n']).length := by simp
    rw [List.cons_append, chomp, ih]
    · intro _ h
      rw [h] at hlen
      contradiction
    · intro _ h
      rw [h] at hlen
      contradiction

theorem chomp_feed {x : List Char} (h : x.getLast? ≠ some '\r') : chomp (x ++ ['\n']) = x := by
  rcases chomp_cases (x ++ ['\n']) with hc | hc | hc
  · have hle := (chomp_feed_isPrefix x).length_le
    rw [← hc, List.length_append, List.length_singleton] at hle
    omega
  · exact (List.append_inj_left' hc rfl).symm
  · rw [show ['\r', '\n'] = ['\r'] ++ ['\n'] from rfl, ← List.append_assoc] at hc
    rw [List.append_inj_left' hc rfl, List.getLast?_concat] at h
    exact absurd rfl h

theorem FirstBreak.chomp {v t x b : List Char} (h : FirstBreak t x b) (hp : Token.Parted v t) :
    Line.chomp (v ++ x ++ b) = v ++ x := by
  rcases h.feed with rfl | ⟨rfl, hr⟩
  · exact chomp_crlf _
  · refine chomp_feed ?_
    rw [List.getLast?_append]
    cases x with
    | nil =>
      intro hv
      obtain ⟨z, rfl⟩ := h.text
      exact hp hv rfl
    | cons c x => simpa using hr

end Line

namespace Document

open Text Line
open Token (Parted)

variable {d : Document} {u v t x z b : List Char}

theorem lineHolding_start (h : d.text = u ++ v) :
    (d.lineHolding (byteLength u)).start = byteLength u - byteLength (lastLine u) := by
  obtain ⟨y, r, rfl, hy, hr⟩ := exists_firstLine v
  obtain ⟨k, hk⟩ := lineHolding_append h hy hr
  rw [hk]

theorem lineHolding_start_append (h : d.text = u ++ z ++ v) (hz : '\n' ∉ z) :
    (d.lineHolding (byteLength (u ++ z))).start = (d.lineHolding (byteLength u)).start := by
  rw [lineHolding_start h, lineHolding_start (h.trans (List.append_assoc u z v)),
    lastLine_append hz, byteLength_append, byteLength_append]
  omega

/-- All that stands in front of a place on its line is text of this line, unless the place tears a line break
apart. -/
theorem lastLine_isPrefix (h : d.text = u ++ v) (hp : Parted u v) :
    lastLine u <+: (d.lineHolding (byteLength u)).text := by
  obtain ⟨w, hu, -, hx⟩ := exists_lastLine u
  obtain ⟨y, r, rfl, hy, hr⟩ := exists_firstLine v
  obtain ⟨k, hk⟩ := lineHolding_append h hy hr
  have hparted : Parted (lastLine u) (y ++ r.take 1) := by
    intro hl
    have hh : (y ++ r.take 1).head? = (y ++ r).head? := by
      rcases hr with rfl | ⟨t, rfl⟩ <;> cases y <;> rfl
    rw [hh]
    apply hp
    rw [hu, List.getLast?_append, hl]
    rfl
  rw [hk, List.append_assoc]
  exact isPrefix_chomp hx hparted

theorem le_lineHolding_stop (h : d.text = u ++ v) (hp : Parted u v) :
    byteLength u ≤ (d.lineHolding (byteLength u)).stop := by
  have hle := byteLength_le_of_isPrefix (lastLine_isPrefix h hp)
  rw [stop, lineHolding_start h]
  omega

theorem stop_lineHolding_of_break (hd : d.text = u ++ (t ++ v)) (hp : Parted u t) (h : FirstBreak t x b) :
    (d.lineHolding (byteLength u)).stop = byteLength u + byteLength x := by
  obtain ⟨w, hu, -, -⟩ := exists_lastLine u
  have hlen := congrArg byteLength hu
  rw [byteLength_append] at hlen
  obtain ⟨z, rfl⟩ := h.text
  have hlast : Parted (lastLine u) (x ++ b ++ z) := by
    intro hr
    apply hp
    rw [hu, List.getLast?_append, hr]
    rfl
  obtain ⟨y, hb, hy⟩ : ∃ y, x ++ b = y ++ ['\n'] ∧ '\n' ∉ y := by
    rcases h.feed with rfl | ⟨rfl, -⟩
    · exact ⟨x ++ ['\r'], by simp, by simpa using h.before⟩
    · exact ⟨x, rfl, h.before⟩
  have htext : d.text = u ++ (y ++ '\n' :: (z ++ v)) := by
    rw [hd, hb]
    simp
  obtain ⟨k, hk⟩ := lineHolding_append htext hy (.inr ⟨_, rfl⟩)
  rw [List.take_succ_cons, List.take_zero, List.append_assoc, ← hb, ← List.append_assoc, h.chomp hlast] at hk
  rw [hk, Line.stop, byteLength_append]
  dsimp only
  omega

theorem le_stop_lineHolding (hd : d.text = u ++ t ++ v) (hp : Parted (u ++ t) v) (ht : '\n' ∉ t) :
    byteLength (u ++ t) ≤ (d.lineHolding (byteLength u)).stop := by
  have hle := le_lineHolding_stop hd hp
  have hstart := lineHolding_start_append hd ht
  have hline := d.lineHolding_start_le (byteLength u)
  have hlen := byteLength_append u t
  have hsize : byteLength u ≤ d.size := by
    rw [d.size_eq, hd, byteLength_append, byteLength_append]
    omega
  rwa [lineHolding_eq (d.lineHolding_mem (byteLength (u ++ t))) (by omega) (by omega) hsize]

theorem stop_lineHolding_mono {m n : Nat} (h : m ≤ n) : (d.lineHolding m).stop ≤ (d.lineHolding n).stop := by
  have hm := (d.holds_lineHolding m).start
  rcases (d.holds_lineHolding n).last _ (d.lineHolding_mem m) (by omega) with heq | hlt
  · exact Nat.le_of_eq (congrArg Line.stop heq)
  · have := (d.lineHolding n).start_le_stop
    omega

theorem slice_append {d : Document} {u v w : List Char} (h : d.text = u ++ v ++ w) :
    d.slice (byteLength u) (byteLength (u ++ v)) = .ok v := by
  have hsize : byteLength (u ++ v) ≤ d.size := by
    rw [d.size_eq, h, byteLength_append (u ++ v)]
    exact Nat.le_add_right _ _
  have hle : byteLength u ≤ byteLength (u ++ v) := by
    rw [byteLength_append]
    exact Nat.le_add_right _ _
  simp only [slice, Nat.min_eq_left hsize, Nat.min_eq_left hle, h, cut?_append]
  split
  · next heq =>
    rw [byteLength_append] at heq
    rw [byteLength_eq_zero (s := v) (by omega)]
  · rfl

end Document

end LosslessYaml
