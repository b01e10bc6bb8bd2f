import LosslessYaml.Text.Utf8

namespace LosslessYaml.Utf8

namespace Lead

variable {n m : Nat}

theorem ofByte?_one (h : n < 0x80) : ofByte? n = some ⟨n, 0, 0x80, 0xBF⟩ := if_pos h

theorem ofByte?_two (h : 0xC2 ≤ n) (h' : n < 0xE0) : ofByte? n = some ⟨n - 0xC0, 1, 0x80, 0xBF⟩ := by
  rw [ofByte?, if_neg (by omega), if_neg (by omega), if_pos h']

theorem ofByte?_three (h : 0xE0 ≤ n) (h' : n < 0xF0) (hm : 0x80 ≤ m) (hm' : m ≤ 0xBF) (hlow : n = 0xE0 → 0xA0 ≤ m)
    (hhigh : n = 0xED → m ≤ 0x9F) : ∃ low high, ofByte? n = some ⟨n - 0xE0, 2, low, high⟩ ∧ low ≤ m ∧ m ≤ high := by
  rw [ofByte?, if_neg (by omega), if_neg (by omega), if_neg (by omega)]
  by_cases hE0 : n = 0xE0
  · subst hE0
    exact ⟨0xA0, 0xBF, rfl, hlow rfl, hm'⟩
  · by_cases hED : n = 0xED
    · subst hED
      exact ⟨0x80, 0x9F, rfl, hm, hhigh rfl⟩
    · rw [if_neg hE0, if_neg hED, if_pos h']
      exact ⟨0x80, 0xBF, rfl, hm, hm'⟩

theorem ofByte?_four (h : 0xF0 ≤ n) (h' : n ≤ 0xF4) (hm : 0x80 ≤ m) (hm' : m ≤ 0xBF) (hlow : n = 0xF0 → 0x90 ≤ m)
    (hhigh : n = 0xF4 → m ≤ 0x8F) : ∃ low high, ofByte? n = some ⟨n - 0xF0, 3, low, high⟩ ∧ low ≤ m ∧ m ≤ high := by
  rw [ofByte?, if_neg (by omega), if_neg (by omega), if_neg (by omega), if_neg (by omega), if_neg (by omega),
    if_neg (by omega)]
  by_cases hF0 : n = 0xF0
  · subst hF0
    exact ⟨0x90, 0xBF, rfl, hlow rfl, hm'⟩
  · by_cases hF4 : n = 0xF4
    · subst hF4
      exact ⟨0x80, 0x8F, rfl, hm, hhigh rfl⟩
    · rw [if_neg hF0, if_pos (by omega)]
      exact ⟨0x80, 0xBF, rfl, hm, hm'⟩

end Lead

theorem following_cons {b low high : Nat} (hlow : low ≤ b) (hhigh : b ≤ high) (hb : b < 0x100) (value seen k : Nat)
    (bs : List UInt8) : following value seen low high (k + 1) (UInt8.ofNat b :: bs) =
      following (value * 64 + b % 64) (seen + 1) 0x80 0xBF k bs := by
  have hbyte : (UInt8.ofNat b).toNat = b := UInt8.toNat_ofNat_of_lt' hb
  rw [following, hbyte, if_pos (by simp [hlow, hhigh])]

theorem step_ofNat {n bits k low high : Nat} (h : Lead.ofByte? n = some ⟨bits, k, low, high⟩) (hn : n < 0x100)
    (bs : List UInt8) : step (UInt8.ofNat n) bs = following bits 1 low high k bs := by
  have hbyte : (UInt8.ofNat n).toNat = n := UInt8.toNat_ofNat_of_lt' hn
  simp only [step, hbyte, h]

theorem step_utf8EncodeChar (c : Char) (bs : List UInt8) :
    ∃ b cs, String.utf8EncodeChar c = b :: cs ∧ step b (cs ++ bs) = .ok (c.toNat, bs) := by
  have hvalid : c.toNat < 0xD800 ∨ 0xDFFF < c.toNat ∧ c.toNat < 0x110000 := c.valid
  have hcode : c.val.toNat = c.toNat := rfl
  unfold String.utf8EncodeChar
  dsimp only
  rw [hcode]
  generalize c.toNat = v at hvalid ⊢
  split
  · refine ⟨_, _, rfl, ?_⟩
    rw [step_ofNat (Lead.ofByte?_one (by omega)) (by omega)]
    rfl
  · split
    · refine ⟨_, _, rfl, ?_⟩
      rw [step_ofNat (Lead.ofByte?_two (by omega) (by omega)) (by omega), List.cons_append,
        following_cons (by omega) (by omega) (by omega), List.nil_append, following,
        show (v / 64 % 32 + 192 - 192) * 64 + (v % 64 + 128) % 64 = v by omega]
    · split
      · obtain ⟨low, high, hlead, hlow, hhigh⟩ := Lead.ofByte?_three (n := v / 4096 % 16 + 224) (m := v / 64 % 64 + 128)
          (by omega) (by omega) (by omega) (by omega) (by omega) (by omega)
        refine ⟨_, _, rfl, ?_⟩
        rw [step_ofNat hlead (by omega), List.cons_append, following_cons hlow hhigh (by omega), List.cons_append,
          following_cons (by omega) (by omega) (by omega), List.nil_append, following,
          show ((v / 4096 % 16 + 224 - 224) * 64 + (v / 64 % 64 + 128) % 64) * 64 + (v % 64 + 128) % 64 = v by omega]
      · obtain ⟨low, high, hlead, hlow, hhigh⟩ := Lead.ofByte?_four (n := v / 262144 % 8 + 240) (m := v / 4096 % 64 + 128)
          (by omega) (by omega) (by omega) (by omega) (by omega) (by omega)
        refine ⟨_, _, rfl, ?_⟩
        rw [step_ofNat hlead (by omega), List.cons_append, following_cons hlow hhigh (by omega), List.cons_append,
          following_cons (by omega) (by omega) (by omega), List.cons_append,
          following_cons (by omega) (by omega) (by omega), List.nil_append, following,
          show (((v / 262144 % 8 + 240 - 240) * 64 + (v / 4096 % 64 + 128) % 64) * 64 + (v / 64 % 64 + 128) % 64) * 64 +
            (v % 64 + 128) % 64 = v by omega]

theorem decodeFrom_encode (offset : Nat) (s : List Char) : decodeFrom offset (encode s) = .ok s := by
  induction s generalizing offset with
  | nil =>
    rw [encode, List.flatMap_nil, decodeFrom]
  | cons c s ih =>
    obtain ⟨b, cs, hc, hstep⟩ := step_utf8EncodeChar c (encode s)
    rw [encode, List.flatMap_cons, hc, ← encode, List.cons_append, decodeFrom]
    split
    · next h =>
      rw [hstep] at h
      cases h
    · next h =>
      rw [hstep] at h
      cases h
    · next h =>
      rw [hstep] at h
      cases h
      rw [ih, Char.ofNat_toNat]
      rfl

theorem decode_encode (s : List Char) : decode (encode s) = .ok s := decodeFrom_encode 0 s

end LosslessYaml.Utf8
