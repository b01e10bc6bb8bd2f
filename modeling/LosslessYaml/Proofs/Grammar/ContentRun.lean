import LosslessYaml.Proofs.Grammar.Origin

namespace LosslessYaml.Grammar

def linesOf (ts : List Placed) : List (List Placed) := ts.splitOnP (·.kind = .newline)

def isBlankLine (line : List Placed) : Bool := line.length ≤ 1 && line.all (·.kind = .whitespace)

def filling (line : List Placed) : List Placed := line.dropWhile (·.kind = .whitespace)

/-- The lines may stand in a block scalar: what they hold starts at column `min` or behind it and with no document
marker, and nowhere in front of the column where the first of them starts that is not blank. -/
structure Level (min : Nat) (run : List (List Placed)) : Prop where
  reaches : ∀ line ∈ run, isBlankLine line = false → atMarker (filling line) = false ∧ min ≤ column (filling line)
  level : ∀ first, run.find? (fun line => !isBlankLine line) = some first →
    ∀ line ∈ run, isBlankLine line = false → column (filling first) ≤ column (filling line)

/-- The longest run of level lines at the start of some lines. -/
structure LongestRun (min : Nat) (lines run : List (List Placed)) : Prop where
  starts : run <+: lines
  level : Level min run
  longest : ∀ r, r <+: lines → Level min r → r <+: run

def LineEnds (ts : List Placed) (above : List (List Placed)) (line : List Placed) (n : Nat) : Prop :=
  ∃ u v, ts = u ++ (line ++ v) ∧ linesOf u = above ++ [[]] ∧ n = (u ++ line).length

section Lines

variable {t : Placed} {ts us line : List Placed} {above below : List (List Placed)}

theorem linesOf_last (h : afterLine ts = []) : linesOf ts = [lineOf ts] := by
  have hts := lineOf_append_afterLine ts
  rw [h, List.append_nil] at hts
  rw [← hts]
  refine List.splitOnP_eq_singleton fun x hx => ?_
  rw [hts] at hx
  exact decide_eq_false (kind_of_mem_lineOf hx)

theorem linesOf_lineOf_append (h : afterLine ts = t :: us) (vs : List Placed) :
    linesOf (lineOf ts ++ t :: vs) = lineOf ts :: linesOf vs := by
  refine List.splitOnP_append_cons_of_forall_mem (fun x hx => ?_) t ?_ vs
  · exact decide_eq_false (kind_of_mem_lineOf hx)
  · exact decide_eq_true (kind_of_afterLine h)

theorem linesOf_line (h : afterLine ts = t :: us) : linesOf ts = lineOf ts :: linesOf us := by
  nth_rewrite 1 [lineOf_append_afterLine ts]
  rw [h, linesOf_lineOf_append h]

theorem lines_induct {P : List Placed → Prop} (last : ∀ ts, afterLine ts = [] → P ts)
    (line : ∀ ts t us, afterLine ts = t :: us → P us → P ts) (ts : List Placed) : P ts := by
  induction hn : ts.length using Nat.strongRecOn generalizing ts with
  | ind n ih =>
    cases ha : afterLine ts with
    | nil => exact last ts ha
    | cons t us =>
      have hlt := length_tail_afterLine t ts us ha
      exact line ts t us ha (ih us.length (hn ▸ hlt) us rfl)

theorem length_linesOf (ts : List Placed) : (linesOf ts).flatten.length + (linesOf ts).length = ts.length + 1 := by
  induction ts using lines_induct with
  | last ts ha =>
    have hts := congrArg List.length (lineOf_append_afterLine ts)
    rw [ha, List.append_nil] at hts
    rw [linesOf_last ha, List.flatten_singleton, List.length_singleton, hts]
  | line ts t us ha ih =>
    have hts := congrArg List.length (lineOf_append_afterLine ts)
    rw [ha, List.length_append, List.length_cons] at hts
    rw [linesOf_line ha, List.flatten_cons, List.length_append, List.length_cons]
    omega

theorem exists_lineEnds (h : linesOf ts = above ++ line :: below) : ∃ n, LineEnds ts above line n := by
  induction above generalizing ts with
  | nil =>
    cases ha : afterLine ts with
    | nil =>
      rw [linesOf_last ha] at h
      obtain ⟨rfl, -⟩ := List.cons.inj h
      exact ⟨_, [], _, lineOf_append_afterLine ts, rfl, rfl⟩
    | cons t us =>
      rw [linesOf_line ha] at h
      obtain ⟨rfl, -⟩ := List.cons.inj h
      exact ⟨_, [], _, lineOf_append_afterLine ts, rfl, rfl⟩
  | cons x above ih =>
    cases ha : afterLine ts with
    | nil =>
      rw [linesOf_last ha] at h
      simp at h
    | cons t us =>
      rw [linesOf_line ha, List.cons_append] at h
      obtain ⟨rfl, hlines⟩ := List.cons.inj h
      obtain ⟨n, u, v, hus, hu, -⟩ := ih hlines
      refine ⟨_, lineOf ts ++ t :: u, v, ?_, ?_, rfl⟩
      · nth_rewrite 1 [lineOf_append_afterLine ts]
        rw [ha, hus, List.append_assoc, List.cons_append]
      · rw [linesOf_lineOf_append ha, hu, List.cons_append]

theorem LineEnds.eq_length {n : Nat} (h : LineEnds ts above line n) :
    n = above.flatten.length + above.length + line.length := by
  obtain ⟨u, v, -, hu, rfl⟩ := h
  have hlen := length_linesOf u
  rw [hu, List.flatten_append, List.flatten_singleton, List.append_nil, List.length_append, List.length_singleton] at hlen
  rw [List.length_append]
  omega

end Lines

section Run

variable {min n : Nat} {indent : Option Nat} {line : List Placed} {above below run lines : List (List Placed)}

def GoesOn (min : Nat) (indent : Option Nat) (line : List Placed) : Prop :=
  atMarker (filling line) = false ∧ min ≤ column (filling line) ∧
    indent.getD (column (filling line)) ≤ column (filling line)

instance (min : Nat) (indent : Option Nat) (line : List Placed) : Decidable (GoesOn min indent line) :=
  inferInstanceAs (Decidable (_ ∧ _ ∧ _))

def contentRun (min : Nat) : Option Nat → List (List Placed) → List (List Placed)
  | _, [] => []
  | indent, line :: lines =>
    if isBlankLine line then line :: contentRun min indent lines
    else if GoesOn min indent line then
      line :: contentRun min (some (indent.getD (column (filling line)))) lines
    else []

def filledLength? : List (List Placed) → Option Nat
  | [] => none
  | line :: lines =>
    match filledLength? lines with
    | some n => some (line.length + 1 + n)
    | none => if isBlankLine line then none else some line.length

theorem contentRun_isPrefix (indent : Option Nat) (lines : List (List Placed)) : contentRun min indent lines <+: lines := by
  induction lines generalizing indent with
  | nil => exact List.prefix_refl []
  | cons line lines ih =>
    rw [contentRun]
    split
    · exact List.cons_prefix_cons.2 ⟨rfl, ih _⟩
    · split
      · exact List.cons_prefix_cons.2 ⟨rfl, ih _⟩
      · exact List.nil_prefix

theorem contentRun_contentRun (indent : Option Nat) (lines : List (List Placed)) :
    contentRun min indent (contentRun min indent lines) = contentRun min indent lines := by
  induction lines generalizing indent with
  | nil => rfl
  | cons line lines ih =>
    by_cases hb : isBlankLine line = true
    · simp only [contentRun, if_pos hb, ih]
    · by_cases hline : GoesOn min indent line
      · simp only [contentRun, if_neg hb, if_pos hline, ih]
      · simp only [contentRun, if_neg hb, if_neg hline]

theorem isPrefix_contentRun (hr : run <+: lines) (h : contentRun min indent run = run) :
    run <+: contentRun min indent lines := by
  induction lines generalizing indent run with
  | nil => exact hr
  | cons line lines ih =>
    cases run with
    | nil => exact List.nil_prefix
    | cons x run =>
      obtain ⟨rfl, hrun⟩ := List.cons_prefix_cons.1 hr
      rw [contentRun] at h ⊢
      split at h
      · next hb =>
        rw [if_pos hb]
        exact List.cons_prefix_cons.2 ⟨rfl, ih hrun (List.cons.inj h).2⟩
      · next hb =>
        rw [if_neg hb]
        split at h
        · next hline =>
          rw [if_pos hline]
          exact List.cons_prefix_cons.2 ⟨rfl, ih hrun (List.cons.inj h).2⟩
        · cases h

theorem contentRun_some_eq_self_iff {i : Nat} : contentRun min (some i) run = run ↔
    ∀ line ∈ run, isBlankLine line = false → GoesOn min (some i) line := by
  induction run with
  | nil => simp [contentRun]
  | cons line run ih =>
    rw [contentRun, List.forall_mem_cons, ← ih]
    by_cases hb : isBlankLine line = true
    · simp [hb]
    · by_cases hline : GoesOn min (some i) line
      · simp [hb, hline]
      · simp [hb, hline]

theorem level_cons_of_blank (hb : isBlankLine line = true) : Level min (line :: run) ↔ Level min run := by
  have hfind : (line :: run).find? (fun line => !isBlankLine line) = run.find? (fun line => !isBlankLine line) := by
    simp [hb]
  constructor
  · rintro ⟨hreaches, hlevel⟩
    refine ⟨fun x hx => hreaches x (List.mem_cons_of_mem _ hx), fun first hfirst x hx => ?_⟩
    exact hlevel first (hfind ▸ hfirst) x (List.mem_cons_of_mem _ hx)
  · rintro ⟨hreaches, hlevel⟩
    refine ⟨List.forall_mem_cons.2 ⟨by simp [hb], hreaches⟩, fun first hfirst => ?_⟩
    exact List.forall_mem_cons.2 ⟨by simp [hb], hlevel first (hfind ▸ hfirst)⟩

theorem level_cons_of_filled (hb : isBlankLine line = false) : Level min (line :: run) ↔
    GoesOn min none line ∧
      ∀ x ∈ run, isBlankLine x = false → GoesOn min (some (column (filling line))) x := by
  have hfind : (line :: run).find? (fun line => !isBlankLine line) = some line := by simp [hb]
  constructor
  · rintro ⟨hreaches, hlevel⟩
    obtain ⟨hmarker, hmin⟩ := hreaches line List.mem_cons_self hb
    refine ⟨⟨hmarker, hmin, Nat.le_refl _⟩, fun x hx hf => ?_⟩
    obtain ⟨hmarker, hmin⟩ := hreaches x (List.mem_cons_of_mem _ hx) hf
    exact ⟨hmarker, hmin, hlevel line hfind x (List.mem_cons_of_mem _ hx) hf⟩
  · rintro ⟨⟨hmarker, hmin, -⟩, hrun⟩
    refine ⟨List.forall_mem_cons.2 ⟨fun _ => ⟨hmarker, hmin⟩, fun x hx hf => ?_⟩, fun first hfirst => ?_⟩
    · exact ⟨(hrun x hx hf).1, (hrun x hx hf).2.1⟩
    · obtain rfl := Option.some.inj (hfind.symm.trans hfirst)
      exact List.forall_mem_cons.2 ⟨fun _ => Nat.le_refl _, fun x hx hf => (hrun x hx hf).2.2⟩

theorem contentRun_eq_self_iff : contentRun min none run = run ↔ Level min run := by
  induction run with
  | nil => exact ⟨fun _ => ⟨nofun, nofun⟩, fun _ => rfl⟩
  | cons line run ih =>
    rw [contentRun]
    cases hb : isBlankLine line with
    | true => rw [if_pos rfl, List.cons.injEq, ih, level_cons_of_blank hb, and_iff_right rfl]
    | false =>
      rw [if_neg Bool.false_ne_true, level_cons_of_filled hb, ← contentRun_some_eq_self_iff]
      by_cases hline : GoesOn min none line
      · simp [hline]
      · simp [hline]

theorem longestRun_contentRun (min : Nat) (lines : List (List Placed)) :
    LongestRun min lines (contentRun min none lines) where
  starts := contentRun_isPrefix none lines
  level := contentRun_eq_self_iff.1 (contentRun_contentRun none lines)
  longest _ hr hlevel := isPrefix_contentRun hr (contentRun_eq_self_iff.2 hlevel)

theorem filledLength?_cons_of_blank (hb : isBlankLine line = true) (lines : List (List Placed)) :
    filledLength? (line :: lines) = (filledLength? lines).map (line.length + 1 + ·) := by
  rw [filledLength?, if_pos hb]
  cases filledLength? lines <;> rfl

theorem filledLength?_cons_of_filled (hb : isBlankLine line = false) (lines : List (List Placed)) :
    filledLength? (line :: lines) = some (((filledLength? lines).map (line.length + 1 + ·)).getD line.length) := by
  rw [filledLength?, if_neg (by simp [hb])]
  cases filledLength? lines <;> rfl

theorem filledLength?_eq_none_iff : filledLength? run = none ↔ ∀ line ∈ run, isBlankLine line = true := by
  induction run with
  | nil => simp [filledLength?]
  | cons line run ih =>
    rw [filledLength?, List.forall_mem_cons, ← ih]
    cases filledLength? run <;> simp

theorem filledLength?_append (hl : isBlankLine line = false) (hbelow : ∀ x ∈ below, isBlankLine x = true) :
    filledLength? (above ++ line :: below) = some (above.flatten.length + above.length + line.length) := by
  induction above with
  | nil =>
    rw [List.nil_append, filledLength?, filledLength?_eq_none_iff.2 hbelow]
    simp [hl]
  | cons x above ih =>
    rw [List.cons_append, filledLength?, ih, List.flatten_cons, List.length_append, List.length_cons]
    exact congrArg some (by omega)

theorem exists_of_filledLength? (h : filledLength? run = some n) : ∃ above line below,
    run = above ++ line :: below ∧ isBlankLine line = false ∧ ∀ x ∈ below, isBlankLine x = true := by
  induction run generalizing n with
  | nil => cases h
  | cons line run ih =>
    cases hr : filledLength? run with
    | some m =>
      obtain ⟨above, last, below, rfl, hlast, hbelow⟩ := ih hr
      exact ⟨line :: above, last, below, rfl, hlast, hbelow⟩
    | none =>
      have hline : isBlankLine line = false := by
        rw [filledLength?, hr] at h
        cases hb : isBlankLine line with
        | true => simp [hb] at h
        | false => rfl
      exact ⟨[], line, run, rfl, hline, filledLength?_eq_none_iff.1 hr⟩

end Run

section Tokens

variable {t : Placed} {ts us line : List Placed}

theorem isBlankLine_eq (line : List Placed) : isBlankLine line = (pastBlank line).isEmpty := by
  match line with
  | [] => rfl
  | [t] =>
    by_cases ht : t.kind = .whitespace
    · simp [isBlankLine, pastBlank, ht]
    · simp [isBlankLine, pastBlank, ht]
  | t :: u :: line =>
    by_cases ht : t.kind = .whitespace
    · simp [isBlankLine, pastBlank, ht]
    · simp [isBlankLine, pastBlank, ht]

theorem filling_eq (hs : Spread line) : filling line = pastBlank line := by
  cases line with
  | nil => rfl
  | cons t line =>
    by_cases ht : t.kind = .whitespace
    · rw [filling, List.dropWhile_cons_of_pos (by simpa using ht), pastBlank, if_pos ht]
      cases line with
      | nil => rfl
      | cons u line =>
        have hu : u.kind ≠ .whitespace := (List.isChain_cons_cons.1 hs).1 ht
        exact List.dropWhile_cons_of_neg (by simpa using hu)
    · rw [filling, List.dropWhile_cons_of_neg (by simpa using ht), pastBlank, if_neg ht]

theorem atGap_append_afterLine (us ts : List Placed) : atGap (us ++ afterLine ts) = atGap us := by
  cases us with
  | nil =>
    cases ha : afterLine ts with
    | nil => rfl
    | cons t us => simp [atGap, kind_of_afterLine ha]
  | cons u us => rfl

theorem atMarker_pastBlank (h : pastBlank (lineOf ts) = t :: us) : atMarker (pastBlank ts) = atMarker (t :: us) := by
  have hts : pastBlank ts = t :: (us ++ afterLine ts) := by
    nth_rewrite 1 [lineOf_append_afterLine ts]
    cases hl : lineOf ts with
    | nil =>
      rw [hl] at h
      cases h
    | cons x line =>
      rw [hl, pastBlank] at h
      rw [List.cons_append, pastBlank]
      split at h
      · next hx => rw [if_pos hx, h, List.cons_append]
      · next hx =>
        obtain ⟨rfl, rfl⟩ := List.cons.inj h
        rw [if_neg hx]
  rw [hts]
  simp only [atMarker, atIndicator, next_cons, column_cons, List.tail_cons, atGap_append_afterLine]
  rfl

theorem spread_lineOf (hs : Spread ts) : Spread (lineOf ts) := by
  rw [Spread, lineOf_append_afterLine ts, List.map_append] at hs
  exact hs.left_of_append

theorem spread_of_afterLine (hs : Spread ts) (h : afterLine ts = t :: us) : Spread us := by
  rw [Spread, lineOf_append_afterLine ts, h, List.map_append] at hs
  exact hs.right_of_append.tail

theorem leaves_iff (min : Nat) (indent : Option Nat) (hs : Spread ts) (h : pastBlank (lineOf ts) = t :: us) :
    (t.column < indent.getD t.column || t.column < min || atMarker (pastBlank ts)) = true ↔
      ¬ GoesOn min indent (lineOf ts) := by
  rw [atMarker_pastBlank h, GoesOn, filling_eq (spread_lineOf hs), h, column_cons]
  cases atMarker (t :: us) with
  | true => simp
  | false =>
    simp only [Bool.or_false, Bool.or_eq_true, decide_eq_true_eq, true_and]
    omega

theorem contentLength?_eq_filledLength? (min : Nat) (indent : Option Nat) (hs : Spread ts) :
    contentLength? min indent ts = filledLength? (contentRun min indent (linesOf ts)) := by
  induction ts using lines_induct generalizing indent with
  | last ts ha =>
    rw [contentLength?_last _ _ ha, linesOf_last ha]
    cases hp : pastBlank (lineOf ts) with
    | nil =>
      have hblank : isBlankLine (lineOf ts) = true := by rw [isBlankLine_eq, hp, List.isEmpty_nil]
      rw [contentRun, if_pos hblank, filledLength?_cons_of_blank hblank]
      rfl
    | cons first rest =>
      have hfilled : isBlankLine (lineOf ts) = false := by rw [isBlankLine_eq, hp, List.isEmpty_cons]
      have hleaves := leaves_iff min indent hs hp
      rw [contentRun, if_neg (by simp [hfilled])]
      by_cases hline : GoesOn min indent (lineOf ts)
      · rw [if_pos hline, filledLength?_cons_of_filled hfilled]
        exact if_neg (mt hleaves.1 (not_not_intro hline))
      · rw [if_neg hline]
        exact if_pos (hleaves.2 hline)
  | line ts t us ha ih =>
    have hrec (indent : Option Nat) := ih indent (spread_of_afterLine hs ha)
    rw [contentLength?_line _ _ ha, linesOf_line ha]
    cases hp : pastBlank (lineOf ts) with
    | nil =>
      have hblank : isBlankLine (lineOf ts) = true := by rw [isBlankLine_eq, hp, List.isEmpty_nil]
      rw [contentRun, if_pos hblank, filledLength?_cons_of_blank hblank, ← hrec]
    | cons first rest =>
      have hfilled : isBlankLine (lineOf ts) = false := by rw [isBlankLine_eq, hp, List.isEmpty_cons]
      have hleaves := leaves_iff min indent hs hp
      have hcolumn : column (filling (lineOf ts)) = first.column := by
        rw [filling_eq (spread_lineOf hs), hp, column_cons]
      rw [contentRun, if_neg (by simp [hfilled])]
      by_cases hline : GoesOn min indent (lineOf ts)
      · rw [if_pos hline, filledLength?_cons_of_filled hfilled, hcolumn, ← hrec]
        refine (if_neg (mt hleaves.1 (not_not_intro hline))).trans ?_
        cases contentLength? min (some (indent.getD first.column)) us <;> rfl
      · rw [if_neg hline]
        exact if_pos (hleaves.2 hline)

end Tokens

/-- From the tokens behind the line break of a header, the content of a block scalar reaches up to the end of the last
line that is not blank in the longest run of level lines there. Without such a line there is no content. -/
theorem contentLength?_run (s : List Char) (i min : Nat) :
    ∃ run, LongestRun min (linesOf ((Placed.place (Token.scan s)).drop (i + 1))) run ∧
      (∀ n, contentLength? min none ((Placed.place (Token.scan s)).drop (i + 1)) = some n ↔
        ∃ above line below, run = above ++ line :: below ∧ isBlankLine line = false ∧
          (∀ x ∈ below, isBlankLine x = true) ∧
          LineEnds ((Placed.place (Token.scan s)).drop (i + 1)) above line n) ∧
      (contentLength? min none ((Placed.place (Token.scan s)).drop (i + 1)) = none ↔
        ∀ line ∈ run, isBlankLine line = true) := by
  have hs : Spread ((Placed.place (Token.scan s)).drop (i + 1)) := by
    rw [Spread, List.map_drop, Placed.map_token_place]
    exact (Token.isChain_scan s).drop (i + 1)
  generalize (Placed.place (Token.scan s)).drop (i + 1) = ts at hs ⊢
  have hrun := longestRun_contentRun min (linesOf ts)
  rw [contentLength?_eq_filledLength? min none hs]
  refine ⟨_, hrun, fun n => ⟨fun hn => ?_, ?_⟩, filledLength?_eq_none_iff⟩
  · obtain ⟨above, line, below, heq, hline, hbelow⟩ := exists_of_filledLength? hn
    obtain ⟨z, hz⟩ := hrun.starts
    rw [heq, List.append_assoc, List.cons_append] at hz
    obtain ⟨m, hends⟩ := exists_lineEnds hz.symm
    rw [heq, filledLength?_append hline hbelow, ← hends.eq_length] at hn
    exact ⟨above, line, below, heq, hline, hbelow, Option.some.inj hn ▸ hends⟩
  · rintro ⟨above, line, below, heq, hline, hbelow, hends⟩
    rw [heq, filledLength?_append hline hbelow, hends.eq_length]

end LosslessYaml.Grammar
