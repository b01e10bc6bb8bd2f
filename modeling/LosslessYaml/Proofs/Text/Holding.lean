import LosslessYaml.Proofs.Text.Lines
import LosslessYaml.Proofs.Token.Standing

namespace LosslessYaml

namespace Text

def EndsOrFeeds (s : List Char) : Prop := s = [] ∨ ∃ t, s = '\n' :: t

theorem exists_lastLine (u : List Char) :
    ∃ w, u = w ++ lastLine u ∧ AtLineStart w ∧ '\n' ∉ lastLine u := by
  refine ⟨(u.reverse.dropWhile (· ≠ '\n')).reverse, ?_, ?_, ?_⟩
  · rw [lastLine, ← List.reverse_append, List.takeWhile_append_dropWhile, List.reverse_reverse]
  · cases h : u.reverse.dropWhile (· ≠ '\n') with
    | nil => exact .inl rfl
    | cons c cs =>
      have hc := List.head_dropWhile_not (p := fun c => decide (c ≠ '\n')) (l := u.reverse)
        (by rw [h]; simp)
      simp only [h, List.head_cons, decide_eq_false_iff_not, Decidable.not_not] at hc
      rw [hc, List.reverse_cons]
      exact atLineStart_concat cs.reverse
  · intro h
    rw [lastLine, List.mem_reverse] at h
    simpa using List.all_eq_true.1 List.all_takeWhile _ h

theorem exists_firstLine (v : List Char) : ∃ y r, v = y ++ r ∧ '\n' ∉ y ∧ EndsOrFeeds r := by
  by_cases h : '\n' ∈ v
  · obtain ⟨y, r, rfl, hy⟩ := List.eq_append_cons_of_mem h
    exact ⟨y, '\n' :: r, rfl, hy, .inr ⟨r, rfl⟩⟩
  · exact ⟨v, [], by simp, h, .inl rfl⟩

end Text

namespace Line

open Text

theorem chomp_of_not_mem {l : List Char} (h : '\n' ∉ l) : chomp l = l := by
  rcases chomp_cases l with hl | hl | hl
  · exact hl.symm
  · exact absurd (hl ▸ List.mem_append_right _ (by simp)) h
  · exact absurd (hl ▸ List.mem_append_right _ (by simp)) h

theorem chomp_feed_isPrefix : ∀ l : List Char, chomp (l ++ ['\n']) <+: l
  | [] => List.prefix_refl _
  | [c] => by
    by_cases hc : c = '\r'
    · subst hc
      exact List.nil_prefix
    · simp [chomp, hc]
  | c :: d :: l => by
    have ih := chomp_feed_isPrefix (d :: l)
    simp only [List.cons_append] at ih ⊢
    rw [chomp]
    · exact List.cons_prefix_cons.2 ⟨rfl, ih⟩
    · simp
    · simp

theorem byteLength_le_of_isPrefix {s t : List Char} (h : s <+: t) : byteLength s ≤ byteLength t := by
  obtain ⟨u, rfl⟩ := h
  rw [byteLength_append]
  exact Nat.le_add_right _ _

theorem le_start_of_mem_numberFrom {k n : Nat} {ls : List (List Char)} {l : Line}
    (h : l ∈ numberFrom k n ls) : n ≤ l.start := by
  induction ls generalizing k n with
  | nil => simp [numberFrom] at h
  | cons x ls ih =>
    rw [numberFrom, List.mem_cons] at h
    rcases h with rfl | h
    · exact Nat.le_refl _
    · exact Nat.le_trans (Nat.le_add_right _ _) (ih h)

theorem pairwise_numberFrom (k n : Nat) (s : List Char) :
    (numberFrom k n (split s)).Pairwise fun l m => l.stop < m.start := by
  induction s using Line.induct generalizing k n with
  | last l hl =>
    rw [split_of_not_mem hl, numberFrom, numberFrom]
    exact List.pairwise_singleton _ _
  | line l s hl ih =>
    rw [split_line hl, numberFrom, List.pairwise_cons]
    refine ⟨fun m hm => ?_, ih _ _⟩
    have hl := byteLength_le_of_isPrefix (chomp_feed_isPrefix l)
    have hm := le_start_of_mem_numberFrom hm
    have hlf : byteLength ['\n'] = 1 := rfl
    rw [byteLength_append, hlf] at hm
    simp only [stop]
    omega

theorem numberFrom_append (k n : Nat) (ls ms : List (List Char)) :
    numberFrom k n (ls ++ ms) =
      numberFrom k n ls ++ numberFrom (k + ls.length) (n + byteLength ls.flatten) ms := by
  induction ls generalizing k n with
  | nil => rfl
  | cons l ls ih =>
    simp only [List.cons_append, numberFrom, ih, List.flatten_cons, byteLength_append,
      List.length_cons]
    congr 3 <;> omega

theorem ofText_append {w x r : List Char} (hw : AtLineStart w) (hx : '\n' ∉ x)
    (hr : EndsOrFeeds r) :
    ∃ k above below, ofText (w ++ (x ++ r)) =
        above ++ ⟨k, byteLength w, chomp (x ++ r.take 1)⟩ :: below ∧
      ∀ l ∈ below, byteLength (w ++ x) < l.start := by
  obtain ⟨ls, hsplit, hflat, -⟩ := split_append hw (x ++ r)
  rw [ofText, hsplit, numberFrom_append, hflat, Nat.zero_add]
  rcases hr with rfl | ⟨t, rfl⟩
  · rw [List.append_nil, split_of_not_mem hx, List.take_nil, List.append_nil]
    exact ⟨_, _, [], rfl, by simp⟩
  · rw [split_line hx]
    refine ⟨_, _, _, rfl, fun l hl => ?_⟩
    have h := le_start_of_mem_numberFrom hl
    have hlf : byteLength ['\n'] = 1 := rfl
    rw [byteLength_append x, hlf] at h
    rw [byteLength_append]
    omega

theorem pairwise_ofText (s : List Char) :
    (ofText s).Pairwise fun l m => l.stop < m.start :=
  pairwise_numberFrom 1 0 s

theorem start_le_stop (l : Line) : l.start ≤ l.stop := Nat.le_add_right _ _

structure Holds (n : Nat) (ls : List Line) (l : Line) : Prop where
  mem : l ∈ ls
  start : l.start ≤ n
  last : ∀ m ∈ ls, m.start ≤ n → m = l ∨ m.stop < l.start

theorem holds_holding {n : Nat} {l : Line} {ls : List Line}
    (h : (l :: ls).Pairwise fun l m => l.stop < m.start) (hl : l.start ≤ n) :
    Holds n (l :: ls) (l.holding n ls) := by
  induction ls generalizing l with
  | nil => exact ⟨List.mem_cons_self, hl, fun m hm _ => .inl (List.mem_singleton.1 hm)⟩
  | cons m ms ih =>
    obtain ⟨hlm, hm⟩ := List.pairwise_cons.1 h
    rw [holding]
    split
    · next hn =>
      have hh := ih hm hn
      refine ⟨List.mem_cons_of_mem _ hh.mem, hh.start, fun x hx hxn => ?_⟩
      rcases List.mem_cons.1 hx with rfl | hx
      · exact .inr (hlm _ hh.mem)
      · exact hh.last x hx hxn
    · next hn =>
      refine ⟨List.mem_cons_self, hl, fun x hx hxn => ?_⟩
      rcases List.mem_cons.1 hx with rfl | hx
      · exact .inl rfl
      · -- all further lines start behind the offset
        exfalso
        rcases List.mem_cons.1 hx with rfl | hx
        · exact hn hxn
        · have := (List.pairwise_cons.1 hm).1 x hx
          have := m.start_le_stop
          omega

end Line

namespace Document

open Text Line

theorem holds_lineHolding (d : Document) (n : Nat) : Holds (min n d.size) d.lines (d.lineHolding n) := by
  have hp := pairwise_ofText d.text
  rw [← d.lines_eq] at hp
  have hs := d.lines_eq
  rw [Line.ofText] at hs
  cases hls : split d.text with
  | nil => exact absurd hls (split_ne_nil d.text)
  | cons x xs =>
    rw [hls, Line.numberFrom] at hs
    rw [lineHolding, hs]
    rw [hs] at hp
    exact holds_holding hp (Nat.zero_le _)

theorem lineHolding_start_le (d : Document) (n : Nat) : (d.lineHolding n).start ≤ n :=
  Nat.le_trans (d.holds_lineHolding n).start (Nat.min_le_left _ _)

theorem lineHolding_mem (d : Document) (n : Nat) : d.lineHolding n ∈ d.lines :=
  (d.holds_lineHolding n).mem

theorem pairwise_lines (d : Document) : d.lines.Pairwise fun l m => l.stop < m.start := by
  rw [d.lines_eq]
  exact pairwise_ofText d.text

theorem lines_apart {d : Document} {l m : Line} (hl : l ∈ d.lines) (hm : m ∈ d.lines) :
    l = m ∨ l.stop < m.start ∨ m.stop < l.start := by
  have hp := d.pairwise_lines
  exact List.Pairwise.forall_of_forall_of_flip (R := fun l m => l = m ∨ l.stop < m.start ∨ m.stop < l.start)
    (fun _ _ => .inl rfl) (hp.imp fun h => .inr (.inl h)) (hp.imp fun h => .inr (.inr h)) hl hm

theorem lineHolding_eq {d : Document} {l : Line} {n : Nat} (hl : l ∈ d.lines) (hs : l.start ≤ n)
    (hn : n ≤ l.stop) (hd : n ≤ d.size) : d.lineHolding n = l := by
  have h := d.holds_lineHolding n
  rcases h.last l hl (by omega) with rfl | hlt
  · rfl
  · have := h.start
    omega

theorem lineHolding_append {d : Document} {u y r : List Char} (hd : d.text = u ++ (y ++ r))
    (hy : '\n' ∉ y) (hr : EndsOrFeeds r) :
    ∃ k, d.lineHolding (byteLength u) =
      ⟨k, byteLength u - byteLength (lastLine u), chomp (lastLine u ++ y ++ r.take 1)⟩ := by
  obtain ⟨w, hu, hw, hx⟩ := exists_lastLine u
  have hlen : byteLength u = byteLength w + byteLength (lastLine u) := by
    rw [← byteLength_append, ← hu]
  have hd' : d.text = w ++ (lastLine u ++ y ++ r) := by
    rw [List.append_assoc, ← List.append_assoc w, ← hu, hd]
  obtain ⟨k, above, below, hlines, hbelow⟩ :=
    ofText_append hw (x := lastLine u ++ y) (by simp [hx, hy]) hr
  rw [← hd', ← d.lines_eq] at hlines
  have hsize : byteLength u ≤ d.size := by
    rw [d.size_eq, hd, byteLength_append u]
    exact Nat.le_add_right _ _
  have h := d.holds_lineHolding (byteLength u)
  have hp := d.pairwise_lines
  refine ⟨k, ?_⟩
  rw [Nat.min_eq_left hsize, hlines] at h
  rw [hlines] at hp
  obtain ⟨-, -, hp⟩ := List.pairwise_append.1 hp
  rw [show byteLength u - byteLength (lastLine u) = byteLength w by omega]
  rcases h.last _ (List.mem_append_right _ List.mem_cons_self) (by simp only; omega) with hl | hl
  · exact hl.symm
  · -- the line found would have to be one above or one below
    exfalso
    have hstart := h.start
    rcases List.mem_append.1 h.mem with hm | hm
    · have habove := hp _ hm _ List.mem_cons_self
      have := start_le_stop (d.lineHolding (byteLength u))
      have := start_le_stop ⟨k, byteLength w, chomp (lastLine u ++ y ++ r.take 1)⟩
      omega
    · rcases List.mem_cons.1 hm with hm | hm
      · rw [hm] at hl
        exact absurd hl (Nat.not_lt.2 (start_le_stop _))
      · have := hbelow _ hm
        rw [← List.append_assoc, ← hu, byteLength_append] at this
        omega

end Document

end LosslessYaml
