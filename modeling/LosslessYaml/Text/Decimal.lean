namespace LosslessYaml.Text

def digit? (base : Nat) (c : Char) : Option Nat :=
  let d :=
    if '0' ≤ c ∧ c ≤ '9' then some (c.toNat - '0'.toNat)
    else if 'a' ≤ c ∧ c ≤ 'f' then some (c.toNat - 'a'.toNat + 10)
    else if 'A' ≤ c ∧ c ≤ 'F' then some (c.toNat - 'A'.toNat + 10)
    else none
  d.filter (· < base)

def isDigit (c : Char) : Bool := (digit? 10 c).isSome

/-- Goes on reading after the digits that make up `value`. `afterDigit` tells whether the character
before was a digit, as it must be in front of an underscore and at the end. -/
def numberFrom (base value : Nat) (afterDigit : Bool) : List Char → Option Nat
  | [] => if afterDigit then some value else none
  | c :: cs =>
    if c = '_' then if afterDigit then numberFrom base value false cs else none
    else
      match digit? base c with
      | some d => numberFrom base (value * base + d) true cs
      | none => none

def number? (base : Nat) (s : List Char) : Option Nat := numberFrom base 0 false s

def digitChar (d : Nat) : Char := Char.ofNat ('0'.toNat + d)

def decimal (n : Nat) : List Char :=
  if n < 10 then [digitChar n] else decimal (n / 10) ++ [digitChar (n % 10)]
termination_by n

end LosslessYaml.Text
