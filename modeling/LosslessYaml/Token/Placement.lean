import LosslessYaml.Token

namespace LosslessYaml

/-- A token, its column in characters since the last line feed, and whether only blanks come before it on its line. -/
structure Placed : Type where
  token : Token
  column : Nat
  startsLine : Bool
  deriving DecidableEq

namespace Placed

def kind (t : Placed) : Kind := t.token.kind

def text (t : Placed) : List Char := t.token.text

def columnAfter (n : Nat) (s : List Char) : Nat :=
  s.foldl (fun col c => if c = '\n' then 0 else col + 1) n

def freshAfter (fresh : Bool) : Kind → Bool
  | .whitespace => fresh
  | .newline => true
  | _ => false

def placeFrom : Nat → Bool → List Token → List Placed
  | _, _, [] => []
  | col, fresh, t :: ts =>
    ⟨t, col, fresh⟩ :: placeFrom (columnAfter col t.text) (freshAfter fresh t.kind) ts

def place (ts : List Token) : List Placed := placeFrom 0 true ts

@[simp] theorem map_token_placeFrom (col : Nat) (fresh : Bool) (ts : List Token) :
    (placeFrom col fresh ts).map Placed.token = ts := by
  induction ts generalizing col fresh with
  | nil => rfl
  | cons t ts ih => simp [placeFrom, ih]

@[simp] theorem map_token_place (ts : List Token) : (place ts).map Placed.token = ts :=
  map_token_placeFrom 0 true ts

end Placed

end LosslessYaml
