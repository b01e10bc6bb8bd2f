import LosslessYaml.Kind
import LosslessYaml.Text.Offset

namespace LosslessYaml

structure Token : Type where
  kind : Kind
  text : List Char
  deriving DecidableEq

namespace Token

def textOf (ts : List Token) : List Char := ts.flatMap Token.text

@[simp] theorem textOf_nil : textOf [] = [] := rfl

@[simp] theorem textOf_cons (t : Token) (ts : List Token) : textOf (t :: ts) = t.text ++ textOf ts := rfl

@[simp] theorem textOf_append (ts us : List Token) : textOf (ts ++ us) = textOf ts ++ textOf us := by
  simp [textOf]

def spansFrom : Nat → List Token → List (Token × Nat × Nat)
  | _, [] => []
  | n, t :: ts => (t, n, n + Text.byteLength t.text) :: spansFrom (n + Text.byteLength t.text) ts

def spans (ts : List Token) : List (Token × Nat × Nat) := spansFrom 0 ts

end Token

end LosslessYaml
