import LosslessYaml.Text.Decimal
import LosslessYaml.Toml.Value

namespace LosslessYaml.Toml

namespace Scalar

def sign : List Char → Bool × List Char
  | '-' :: cs => (true, cs)
  | '+' :: cs => (false, cs)
  | cs => (false, cs)

def hasSign (w : List Char) : Bool := w.head? = some '-' || w.head? = some '+'

def plainNumber? (w : List Char) : Option Nat :=
  if w.head? = some '0' && w ≠ ['0'] then none else Text.number? 10 w

def natural? : List Char → Option Nat
  | '0' :: 'x' :: cs => Text.number? 16 cs
  | '0' :: 'o' :: cs => Text.number? 8 cs
  | '0' :: 'b' :: cs => Text.number? 2 cs
  | cs => plainNumber? cs

def integer? (w : List Char) : Option Int := do
  let (negative, digits) := sign w
  let n ← if hasSign w then plainNumber? digits else natural? digits
  if negative then if n ≤ Nat.pow 2 127 then some (-(n : Int)) else none
  else if n < Nat.pow 2 128 then some n else none

structure Fraction : Type where
  digits : Nat
  scale : Nat

def mantissa? (w : List Char) : Option Fraction :=
  let whole := w.takeWhile (· ≠ '.')
  match w.dropWhile (· ≠ '.') with
  | [] => do return ⟨← plainNumber? whole, 0⟩
  | _ :: places => do
    let n ← plainNumber? whole
    let m ← Text.number? 10 places
    let k := (places.filter (· ≠ '_')).length
    return ⟨n * Nat.pow 10 k + m, k⟩

/-- From this value on a double-precision number is infinite: halfway between the largest finite one
and the next power of two. -/
def floatLimit : Nat := Nat.pow 2 1024 - Nat.pow 2 970

/-- Whether `digits / 10 ^ scale * 10 ^ exponent` is a finite double-precision number. The number of
digits decides unless it is near that of the limit. -/
def isFinite (f : Fraction) (negativeExponent : Bool) (exponent : Nat) : Bool :=
  let up := if negativeExponent then 0 else exponent
  let down := f.scale + if negativeExponent then exponent else 0
  let size := (Text.decimal f.digits).length
  f.digits = 0 || size + up ≤ down + 308 ||
    (size + up ≤ down + 309 && f.digits * Nat.pow 10 (up - down) < floatLimit * Nat.pow 10 (down - up))

def isSpecial (w : List Char) : Bool := w = ['i', 'n', 'f'] || w = ['n', 'a', 'n']

def isFloat (w : List Char) : Bool :=
  let digits := (sign w).2
  let front := digits.takeWhile fun c => c ≠ 'e' && c ≠ 'E'
  isSpecial digits ||
    match digits.dropWhile fun c => c ≠ 'e' && c ≠ 'E' with
    | [] => front.contains '.' && (mantissa? front).any (isFinite · false 0)
    | _ :: power =>
      match mantissa? front, Text.number? 10 (sign power).2 with
      | some f, some n => isFinite f (sign power).1 n
      | _, _ => false

def field? (n low high : Nat) (w : List Char) : Option (Nat × List Char) :=
  let digits := w.take n
  if digits.length = n && digits.all Text.isDigit then
    match Text.number? 10 digits with
    | some k => if low ≤ k && k ≤ high then some (k, w.drop n) else none
    | none => none
  else none

def expect (c : Char) : List Char → Option (List Char)
  | [] => none
  | d :: cs => if c = d then some cs else none

def isLeapYear (y : Nat) : Bool := y % 4 = 0 && (y % 100 ≠ 0 || y % 400 = 0)

def daysIn (y m : Nat) : Nat :=
  if m = 2 then if isLeapYear y then 29 else 28
  else if m = 4 || m = 6 || m = 9 || m = 11 then 30
  else 31

def date? (w : List Char) : Option (List Char) := do
  let (y, w) ← field? 4 0 9999 w
  let (m, w) ← field? 2 1 12 (← expect '-' w)
  let (_, w) ← field? 2 1 (daysIn y m) (← expect '-' w)
  return w

def places? (w : List Char) : Option (List Char) :=
  if (w.takeWhile Text.isDigit).isEmpty then none else some (w.dropWhile Text.isDigit)

def seconds? : List Char → Option (List Char)
  | ':' :: w =>
    match field? 2 0 60 w with
    | some (_, '.' :: w) => places? w
    | some (_, w) => some w
    | none => none
  | w => some w

def time? (w : List Char) : Option (List Char) := do
  let (_, w) ← field? 2 0 23 w
  let (_, w) ← field? 2 0 59 (← expect ':' w)
  seconds? w

def isOffset : List Char → Bool
  | [] => true
  | [c] => c = 'Z' || c = 'z'
  | c :: w =>
    (c = '+' || c = '-') &&
      (do
        let (_, w) ← field? 2 0 23 w
        let (_, w) ← field? 2 0 59 (← expect ':' w)
        return w.isEmpty) = some true

def isDatetime (w : List Char) : Bool :=
  match date? w with
  | some [] => true
  | some (c :: w) => (c = 'T' || c = 't' || c = ' ') && (time? w).any isOffset
  | none => time? w = some []

def ofWord? (w : List Char) : Option Value :=
  if w = ['t', 'r', 'u', 'e'] then some (.boolean true)
  else if w = ['f', 'a', 'l', 's', 'e'] then some (.boolean false)
  else
    match integer? w with
    | some n => some (.integer n)
    | none =>
      if isFloat w then some (.float w)
      else if isDatetime w then some (.datetime w)
      else none

def isWordChar (c : Char) : Bool :=
  c.isAlphanum || c = '+' || c = '-' || c = '.' || c = '_' || c = ':'

def word (s : List Char) : List Char × List Char :=
  let w := s.takeWhile isWordChar
  let rest := s.dropWhile isWordChar
  match rest with
  | ' ' :: c :: cs =>
    if date? w = some [] && Text.isDigit c then
      (w ++ ' ' :: (c :: cs).takeWhile isWordChar, (c :: cs).dropWhile isWordChar)
    else (w, rest)
  | _ => (w, rest)

end Scalar

end LosslessYaml.Toml
