import LosslessYaml.Text.Decimal

namespace LosslessYaml.Text

theorem digit?_digitChar : ∀ d < 10, digit? 10 (digitChar d) = some d := by decide

theorem forall_mem_decimal {P : Char → Prop} (h : ∀ d < 10, P (digitChar d)) (n : Nat) : ∀ c ∈ decimal n, P c := by
  fun_induction decimal n with
  | case1 n hn =>
    rintro c hc
    obtain rfl := List.mem_singleton.1 hc
    exact h n hn
  | case2 n hn ih =>
    intro c hc
    rcases List.mem_append.1 hc with hc | hc
    · exact ih c hc
    · obtain rfl := List.mem_singleton.1 hc
      exact h (n % 10) (Nat.mod_lt n (by decide))

theorem decimal_ne_nil (n : Nat) : decimal n ≠ [] := by
  rw [decimal]
  split <;> simp

theorem exists_decimal_cons {P : Char → Prop} (h : ∀ d < 10, P (digitChar d)) (n : Nat) :
    ∃ c cs, decimal n = c :: cs ∧ P c := by
  obtain ⟨c, cs, hcs⟩ := List.exists_cons_of_ne_nil (decimal_ne_nil n)
  exact ⟨c, cs, hcs, forall_mem_decimal h n c (hcs ▸ List.mem_cons_self)⟩

theorem head?_decimal {n : Nat} (h : n ≠ 0) : (decimal n).head? ≠ some '0' := by
  fun_induction decimal n with
  | case1 n hn =>
    have hdigit : ∀ d < 10, d ≠ 0 → some (digitChar d) ≠ some '0' := by decide
    exact hdigit n hn h
  | case2 n hn ih =>
    obtain ⟨c, cs, hcs⟩ := List.exists_cons_of_ne_nil (decimal_ne_nil (n / 10))
    have hc := ih (by omega)
    rwa [hcs] at hc ⊢

theorem numberFrom_digitChar {d : Nat} (hd : d < 10) (value : Nat) (afterDigit : Bool) (rest : List Char) :
    numberFrom 10 value afterDigit (digitChar d :: rest) = numberFrom 10 (value * 10 + d) true rest := by
  have hunder : ∀ d < 10, digitChar d ≠ '_' := by decide
  rw [numberFrom, if_neg (hunder d hd), digit?_digitChar d hd]

theorem numberFrom_decimal (n : Nat) (afterDigit : Bool) (rest : List Char) :
    numberFrom 10 0 afterDigit (decimal n ++ rest) = numberFrom 10 n true rest := by
  fun_induction decimal n generalizing rest with
  | case1 n hn => rw [List.singleton_append, numberFrom_digitChar hn, Nat.zero_mul, Nat.zero_add]
  | case2 n hn ih =>
    rw [List.append_assoc, List.singleton_append, ih, numberFrom_digitChar (Nat.mod_lt n (by decide)), Nat.mul_comm,
      Nat.div_add_mod]

theorem number?_decimal (n : Nat) : number? 10 (decimal n) = some n := by
  have h := numberFrom_decimal n false []
  rwa [List.append_nil] at h

end LosslessYaml.Text
