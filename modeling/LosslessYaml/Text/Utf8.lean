namespace LosslessYaml.Utf8

inductive Malformed : Type
  | invalid (length offset : Nat)
  | incomplete (offset : Nat)
  deriving DecidableEq

def Malformed.message : Malformed → String
  | .invalid n i => s!"invalid utf-8 sequence of {n} bytes from index {i}"
  | .incomplete i => s!"incomplete utf-8 byte sequence from index {i}"

/-- What a leading byte announces: its own bits, the number of bytes that follow, and the range of
the first of them. The narrower ranges keep out overlong forms, surrogates and values that are
too large. -/
structure Lead : Type where
  bits : Nat
  following : Nat
  low : Nat := 0x80
  high : Nat := 0xBF

def Lead.ofByte? (b : Nat) : Option Lead :=
  if b < 0x80 then some ⟨b, 0, 0x80, 0xBF⟩
  else if b < 0xC2 then none
  else if b < 0xE0 then some ⟨b - 0xC0, 1, 0x80, 0xBF⟩
  else if b = 0xE0 then some ⟨0, 2, 0xA0, 0xBF⟩
  else if b = 0xED then some ⟨0xD, 2, 0x80, 0x9F⟩
  else if b < 0xF0 then some ⟨b - 0xE0, 2, 0x80, 0xBF⟩
  else if b = 0xF0 then some ⟨0, 3, 0x90, 0xBF⟩
  else if b < 0xF4 then some ⟨b - 0xF0, 3, 0x80, 0xBF⟩
  else if b = 0xF4 then some ⟨4, 3, 0x80, 0x8F⟩
  else none

/-- A character's code and the bytes after it, or how the bytes fail: `some n` if `n` of them were
fine before one that does not fit, `none` if the input ended. -/
abbrev Step : Type := Except (Option Nat) (Nat × List UInt8)

def following (value seen low high : Nat) : Nat → List UInt8 → Step
  | 0, bs => .ok (value, bs)
  | _ + 1, [] => .error none
  | k + 1, b :: bs =>
    if low ≤ b.toNat && b.toNat ≤ high then
      following (value * 64 + b.toNat % 64) (seen + 1) 0x80 0xBF k bs
    else .error (some seen)

theorem length_following {value seen low high k n : Nat} {bs rest : List UInt8}
    (h : following value seen low high k bs = .ok (n, rest)) : rest.length ≤ bs.length := by
  induction k generalizing value seen low high bs with
  | zero =>
    simp only [following, Except.ok.injEq, Prod.mk.injEq] at h
    simp [h.2]
  | succ k ih =>
    cases bs with
    | nil => simp [following] at h
    | cons b bs =>
      simp only [following] at h
      split at h
      · exact Nat.le_succ_of_le (ih h)
      · simp at h

def step (b : UInt8) (bs : List UInt8) : Step :=
  match Lead.ofByte? b.toNat with
  | none => .error (some 1)
  | some l => following l.bits 1 l.low l.high l.following bs

theorem length_step {b : UInt8} {bs rest : List UInt8} {n : Nat} (h : step b bs = .ok (n, rest)) :
    rest.length ≤ bs.length := by
  simp only [step] at h
  split at h
  · simp at h
  · exact length_following h

def decodeFrom (offset : Nat) : List UInt8 → Except Malformed (List Char)
  | [] => .ok []
  | b :: bs =>
    match _h : step b bs with
    | .error none => .error (.incomplete offset)
    | .error (some n) => .error (.invalid n offset)
    | .ok (n, rest) =>
      (decodeFrom (offset + (bs.length + 1 - rest.length)) rest).map (Char.ofNat n :: ·)
termination_by bs => bs.length
decreasing_by
  have := length_step ‹_›
  simp only [List.length_cons]
  omega

def decode (bs : List UInt8) : Except Malformed (List Char) := decodeFrom 0 bs

def encode (s : List Char) : List UInt8 := s.flatMap String.utf8EncodeChar

end LosslessYaml.Utf8
