import LosslessYaml.Proofs.Text.Decimal
import LosslessYaml.Toml.Reader

namespace LosslessYaml.Toml

open Text (decimal)

namespace Scalar

variable {n : Nat}

theorem not_mem_decimal {c : Char} (h : ∀ d < 10, Text.digitChar d ≠ c) (n : Nat) : c ∉ decimal n :=
  fun hc => Text.forall_mem_decimal (P := (· ≠ c)) h n c hc rfl

theorem plainNumber?_decimal (n : Nat) : plainNumber? (decimal n) = some n := by
  rw [plainNumber?, Text.number?_decimal, if_neg]
  by_cases hn : n = 0
  · subst hn
    simp [Text.decimal, Text.digitChar]
  · simp [Text.head?_decimal hn]

theorem natural?_decimal (n : Nat) : natural? (decimal n) = some n := by
  have hx := not_mem_decimal (c := 'x') (by decide) n
  have ho := not_mem_decimal (c := 'o') (by decide) n
  have hb := not_mem_decimal (c := 'b') (by decide) n
  unfold natural?
  split
  · next h => simp [h] at hx
  · next h => simp [h] at ho
  · next h => simp [h] at hb
  · exact plainNumber?_decimal n

theorem integer?_decimal (hn : n < Nat.pow 2 128) : integer? (decimal n) = some (n : Int) := by
  have hminus := not_mem_decimal (c := '-') (by decide) n
  have hplus := not_mem_decimal (c := '+') (by decide) n
  have hsign : sign (decimal n) = (false, decimal n) := by
    unfold sign
    split
    · next h => simp [h] at hminus
    · next h => simp [h] at hplus
    · rfl
  have hhas : hasSign (decimal n) = false := by
    have hhead {c : Char} (hc : c ∉ decimal n) : (decimal n).head? ≠ some c :=
      fun h => hc (List.mem_of_head? h)
    simp [hasSign, hhead hminus, hhead hplus]
  simp [integer?, hsign, hhas, natural?_decimal, hn]

theorem ofWord?_decimal (hn : n < Nat.pow 2 128) : ofWord? (decimal n) = some (.integer n) := by
  have ht := not_mem_decimal (c := 't') (by decide) n
  have hf := not_mem_decimal (c := 'f') (by decide) n
  rw [ofWord?, if_neg, if_neg, integer?_decimal hn]
  · intro h
    simp [h] at hf
  · intro h
    simp [h] at ht

theorem word_decimal (n : Nat) (rest : List Char) : word (decimal n ++ '\n' :: rest) = (decimal n, '\n' :: rest) := by
  have hdigits := Text.forall_mem_decimal (P := (isWordChar · = true)) (by decide) n
  have htake : (decimal n ++ '\n' :: rest).takeWhile isWordChar = decimal n := by
    rw [List.takeWhile_append_of_pos hdigits, List.takeWhile_cons_of_neg (by decide), List.append_nil]
  have hdrop : (decimal n ++ '\n' :: rest).dropWhile isWordChar = '\n' :: rest := by
    rw [List.dropWhile_append_of_pos hdigits, List.dropWhile_cons_of_neg (by decide)]
  rw [word, htake, hdrop]
  rfl

end Scalar

namespace Reader

structure IsBare (k : Key) : Prop where
  ne_nil : k ≠ []
  chars : ∀ c ∈ k, isKeyChar c = true

theorem value_decimal {n : Nat} (hn : n < Nat.pow 2 128) (depth : Nat) (rest : List Char) :
    value depth (decimal n ++ '\n' :: rest) = some (.integer n, '\n' :: rest) := by
  have hword := Scalar.word_decimal n rest
  have hof := Scalar.ofWord?_decimal hn
  obtain ⟨c, cs, hcs, hc⟩ := Text.exists_decimal_cons
    (P := fun c => ¬ (c = '[' ∨ c = '{' ∨ c = '"' ∨ c = '\'')) (by decide) n
  simp only [not_or] at hc
  unfold value
  split
  · next h =>
    rw [hcs] at h
    exact absurd (List.cons.inj h).1 hc.1
  · next h =>
    rw [hcs] at h
    exact absurd (List.cons.inj h).1 hc.2.1
  · split
    · next h =>
      rw [hcs] at h
      exact absurd (List.cons.inj h).1 hc.2.2.1
    · next h =>
      rw [hcs] at h
      exact absurd (List.cons.inj h).1 hc.2.2.2
    · simp [hword, hof]

variable {k : Key}

theorem IsBare.append_ne_cons (hk : IsBare k) {c : Char} (hc : isKeyChar c = false) (rest cs : List Char) :
    k ++ rest ≠ c :: cs := by
  obtain ⟨x, xs, rfl⟩ := List.exists_cons_of_ne_nil hk.ne_nil
  intro h
  have hx := hk.chars x List.mem_cons_self
  rw [(List.cons.inj h).1, hc] at hx
  cases hx

theorem IsBare.key (hk : IsBare k) {c : Char} (hc : isKeyChar c = false) (rest : List Char) :
    Reader.key (k ++ c :: rest) = some (k, c :: rest) := by
  have htake : (k ++ c :: rest).takeWhile isKeyChar = k := by
    rw [List.takeWhile_append_of_pos hk.chars, List.takeWhile_cons_of_neg (by simp [hc]), List.append_nil]
  have hdrop : (k ++ c :: rest).dropWhile isKeyChar = c :: rest := by
    rw [List.dropWhile_append_of_pos hk.chars, List.dropWhile_cons_of_neg (by simp [hc])]
  have hne : k.isEmpty = false := List.isEmpty_eq_false_iff.2 hk.ne_nil
  unfold Reader.key
  split
  · next h => exact absurd h (hk.append_ne_cons (by decide) _ _)
  · next h => exact absurd h (hk.append_ne_cons (by decide) _ _)
  · dsimp only
    rw [htake, hdrop, hne]
    rfl

theorem IsBare.path (hk : IsBare k) (rest : List Char) :
    Reader.path (k ++ ' ' :: '=' :: rest) = some ([], k, '=' :: rest) := by
  have hkey := hk.key (c := ' ') (by decide) ('=' :: rest)
  have hfrom : pathFrom [] k (' ' :: '=' :: rest) = some ([], k, '=' :: rest) := by
    rw [pathFrom]
    rfl
  simp [Reader.path, hkey, hfrom]

def assignment (k : Key) (n : Nat) : List Char := k ++ " = ".toList ++ decimal n ++ ['\n']

theorem assignment_append (k : Key) (n : Nat) (rest : List Char) :
    assignment k n ++ rest = k ++ ' ' :: '=' :: ' ' :: (decimal n ++ '\n' :: rest) := by
  simp [assignment]

variable {n : Nat}

theorem blanks_decimal (n : Nat) (rest : List Char) : blanks (' ' :: (decimal n ++ rest)) = decimal n ++ rest := by
  obtain ⟨c, cs, hcs, hc⟩ := Text.exists_decimal_cons (P := fun c => ¬ (c = ' ' ∨ c = '\t')) (by decide) n
  rw [hcs, blanks, List.dropWhile_cons_of_pos (by decide), List.cons_append, List.dropWhile_cons_of_neg (by simpa using hc)]

theorem IsBare.pair (hk : IsBare k) (hn : n < Nat.pow 2 128) (depth : Nat) (rest : List Char) :
    pair (fun s => some (blanks s)) (value depth) (assignment k n ++ rest) =
      some (([], k, .integer n), '\n' :: rest) := by
  have hequals (cs : List Char) : Scalar.expect '=' (blanks ('=' :: cs)) = some cs := rfl
  simp [Reader.pair, assignment_append, hk.path, hequals, blanks_decimal, value_decimal hn]

theorem IsBare.statement (hk : IsBare k) (hn : n < Nat.pow 2 128) (rest : List Char) :
    Reader.statement (assignment k n ++ rest) = some (.pair [] k (.integer n), '\n' :: rest) := by
  have hpair := hk.pair hn depthLimit rest
  rw [assignment_append] at hpair ⊢
  unfold Reader.statement
  split
  · next h => exact absurd h (hk.append_ne_cons (by decide) _ _)
  · next h => exact absurd h (hk.append_ne_cons (by decide) _ _)
  · simp [hpair]

theorem IsBare.gap (hk : IsBare k) (rest : List Char) : Reader.gap (k ++ rest) = some (k ++ rest) := by
  obtain ⟨x, xs, rfl⟩ := List.exists_cons_of_ne_nil hk.ne_nil
  have hne {c : Char} (hc : isKeyChar c = false) : x ≠ c :=
    fun h => hk.append_ne_cons hc rest (xs ++ rest) (h ▸ rfl)
  have hspace : x ≠ ' ' := hne (by decide)
  have htab : x ≠ '\t' := hne (by decide)
  have hhash : x ≠ '#' := hne (by decide)
  rw [List.cons_append, Reader.gap, gapFrom]
  · simp [hspace, htab, hhash]
  · exact hne (by decide)
  · exact fun _ h => absurd h (hne (by decide))

theorem IsBare.statements (hk : IsBare k) (hn : n < Nat.pow 2 128) (rest : List Char) :
    Reader.statements (assignment k n ++ rest) =
      (Reader.statements rest).map (.pair [] k (.integer n) :: ·) := by
  have hgap : Reader.gap (assignment k n ++ rest) = some (assignment k n ++ rest) := by
    rw [assignment_append]
    exact hk.gap _
  have hstatement := hk.statement hn rest
  have hlength : rest.length < (assignment k n ++ rest).length := by
    simp only [assignment, List.length_append, List.length_singleton]
    omega
  obtain ⟨c, cs, hcs⟩ : ∃ c cs, assignment k n ++ rest = c :: cs :=
    List.exists_cons_of_ne_nil (by simp [assignment])
  have hend : lineEnd ('\n' :: rest) = some rest := rfl
  rw [hcs] at hgap hstatement hlength ⊢
  rw [Reader.statements, hgap]
  simp only [hstatement, hend, if_pos hlength]

theorem IsBare.withoutMark (hk : IsBare k) (rest : List Char) : Reader.withoutMark (k ++ rest) = k ++ rest := by
  unfold Reader.withoutMark
  split
  · next h => exact absurd h (hk.append_ne_cons (by decide) _ _)
  · rfl

end Reader

open Reader

def assignments (ps : List (Key × Nat)) : List Char := ps.flatMap fun (k, n) => assignment k n

def assigned (ps : List (Key × Nat)) : Entries := ps.map fun (k, n) => (k, .integer n)

variable {ps : List (Key × Nat)}

theorem statements_assignments (h : ∀ p ∈ ps, IsBare p.1 ∧ p.2 < Nat.pow 2 128) :
    statements (assignments ps) = some ((assigned ps).map fun (k, v) => .pair [] k v) := by
  induction ps with
  | nil =>
    rw [statements.eq_def]
    rfl
  | cons p ps ih =>
    obtain ⟨⟨hk, hn⟩, hps⟩ := List.forall_mem_cons.1 h
    rw [assignments, List.flatMap_cons, hk.statements hn, ← assignments, ih hps]
    rfl

namespace Entries

theorem build_pair {es : Entries} {k : Key} (hk : k ∉ es.map Prod.fst) (v : Value) (ss : List Statement) :
    build [] es (.pair [] k v :: ss) = build [] (es ++ [(k, v)]) ss := by
  have hlookup : es.lookup k = none := by
    refine List.lookup_eq_none_iff.2 fun p hp => ?_
    have hne : k ≠ p.1 := fun h => hk (h ▸ List.mem_map_of_mem hp)
    simpa using hne
  simp [build, alter, insert, hlookup]

theorem build_pairs {es fs : Entries} (h : ((es ++ fs).map Prod.fst).Nodup) :
    build [] es (fs.map fun (k, v) => .pair [] k v) = some (es ++ fs) := by
  induction fs generalizing es with
  | nil => rw [List.map_nil, build, List.append_nil]
  | cons f fs ih =>
    have hk : f.1 ∉ es.map Prod.fst := by
      rw [List.map_append, List.nodup_append] at h
      exact fun hmem => h.2.2 f.1 hmem f.1 List.mem_cons_self rfl
    rw [List.append_cons] at h
    rw [List.map_cons, build_pair hk, ih h, List.append_assoc, List.singleton_append]

end Entries

/-- Lines that set different keys are read as what they say. -/
theorem read_assignments (h : ∀ p ∈ ps, IsBare p.1 ∧ p.2 < Nat.pow 2 128) (hkeys : (ps.map Prod.fst).Nodup) :
    read (assignments ps) = some (assigned ps) := by
  have hmark : withoutMark (assignments ps) = assignments ps := by
    cases ps with
    | nil => rfl
    | cons p ps =>
      obtain ⟨⟨hk, -⟩, -⟩ := List.forall_mem_cons.1 h
      rw [assignments, List.flatMap_cons, assignment_append, hk.withoutMark]
  have hnodup : (([] ++ assigned ps).map Prod.fst).Nodup := by
    rw [List.nil_append, assigned, List.map_map]
    exact hkeys
  rw [read, hmark, statements_assignments h]
  exact Entries.build_pairs hnodup

end LosslessYaml.Toml
