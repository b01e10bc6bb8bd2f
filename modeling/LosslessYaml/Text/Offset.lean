/-!
Byte offsets into a text. A text is a list of characters, and an offset counts the bytes of their
UTF-8 form; an offset that falls inside a character names no place in the text.
-/

namespace LosslessYaml.Text

def byteLength (s : List Char) : Nat := s.foldl (fun n c => n + c.utf8Size) 0

theorem foldl_utf8Size (n : Nat) (s : List Char) :
    s.foldl (fun n c => n + c.utf8Size) n = n + byteLength s := by
  induction s generalizing n with
  | nil => rfl
  | cons c s ih =>
    rw [byteLength, List.foldl_cons, List.foldl_cons, ih, ih (0 + c.utf8Size)]
    omega

@[simp] theorem byteLength_nil : byteLength [] = 0 := rfl

@[simp] theorem byteLength_cons (c : Char) (s : List Char) : byteLength (c :: s) = c.utf8Size + byteLength s := by
  rw [byteLength, List.foldl_cons, foldl_utf8Size]
  omega

@[simp] theorem byteLength_append (s t : List Char) : byteLength (s ++ t) = byteLength s + byteLength t := by
  rw [byteLength, List.foldl_append, foldl_utf8Size]
  rfl

/-- Cuts a text at a byte offset. `none` for an offset inside a character or beyond the end. -/
def cut? : Nat → List Char → Option (List Char × List Char)
  | 0, s => some ([], s)
  | _ + 1, [] => none
  | n + 1, c :: cs =>
    if n + 1 < c.utf8Size then none
    else (cut? (n + 1 - c.utf8Size) cs).map fun (s, t) => (c :: s, t)

theorem cut?_append (s t : List Char) : cut? (byteLength s) (s ++ t) = some (s, t) := by
  induction s with
  | nil => simp [cut?]
  | cons c s ih =>
    obtain ⟨m, hm⟩ : ∃ m, c.utf8Size = m + 1 := ⟨c.utf8Size - 1, by have := c.utf8Size_pos; omega⟩
    have hn : byteLength (c :: s) = (m + byteLength s) + 1 := by rw [byteLength_cons, hm]; omega
    rw [hn, List.cons_append, cut?, hm]
    rw [if_neg (by omega), show m + byteLength s + 1 - (m + 1) = byteLength s by omega, ih]
    rfl

theorem eq_append_of_cut? {n : Nat} {s u v : List Char} (h : cut? n s = some (u, v)) :
    s = u ++ v ∧ byteLength u = n := by
  fun_induction cut? n s generalizing u with
  | case1 s =>
    cases h
    exact ⟨rfl, rfl⟩
  | case2 => cases h
  | case3 => cases h
  | case4 n c s hc ih =>
    obtain ⟨⟨x, y⟩, hxy, heq⟩ := Option.map_eq_some_iff.1 h
    cases heq
    obtain ⟨rfl, hlen⟩ := ih hxy
    refine ⟨rfl, ?_⟩
    rw [byteLength_cons, hlen]
    omega

/-- What stands in front of an offset, all of the text if the offset names no place in it. -/
def front (n : Nat) (s : List Char) : List Char := ((cut? n s).map Prod.fst).getD s

theorem front_append {n : Nat} {s u v : List Char} (h : s = u ++ v) (hn : byteLength u = n) :
    front n s = u := by
  rw [front, h, ← hn, cut?_append]
  rfl

def slice? (a b : Nat) (s : List Char) : Option (List Char) := do
  let (u, _) ← cut? b s
  let (_, w) ← cut? a u
  return w

theorem slice?_append {a b : Nat} {s u w v : List Char} (h : s = u ++ w ++ v) (ha : byteLength u = a)
    (hb : byteLength (u ++ w) = b) : slice? a b s = some w := by
  subst ha hb h
  simp only [slice?, cut?_append, Option.bind_eq_bind, Option.bind_some]
  rfl

def isBoundary : Nat → List Char → Bool
  | 0, _ => true
  | _ + 1, [] => false
  | n + 1, c :: cs => c.utf8Size ≤ n + 1 && isBoundary (n + 1 - c.utf8Size) cs

theorem isSome_cut? (n : Nat) (s : List Char) : (cut? n s).isSome = isBoundary n s := by
  fun_induction cut? n s with
  | case1 => rw [isBoundary, Option.isSome_some]
  | case2 => rfl
  | case3 n c cs h => rw [isBoundary, decide_eq_false (Nat.not_le_of_lt h), Bool.false_and, Option.isSome_none]
  | case4 n c cs h ih =>
    rw [isBoundary, decide_eq_true (Nat.le_of_not_lt h), Bool.true_and, Option.isSome_map, ih]

end LosslessYaml.Text
