import LosslessYaml.Event

namespace LosslessYaml.Event

inductive Malformed : Type
  | wrapper (index : Nat)
  | finish
  | root
  deriving DecidableEq

/-- Takes the starts that a start points to, one after the other, out of the events from index
`base` on: their kinds, from the inside out, and the events without them. Each start is taken at
most once, so there are no more steps than events. -/
def takeWrappers (base : Nat) : Nat → Option Nat → List Event → Except Malformed (List Kind × List Event)
  | _, none, es => .ok ([], es)
  | 0, some i, _ => .error (.wrapper i)
  | n + 1, some i, es =>
    match if base ≤ i then es[i - base]? else none with
    | some (.start k next) =>
      match takeWrappers base n next (es.set (i - base) .placeholder) with
      | .ok (ks, rest) => .ok (k :: ks, rest)
      | .error e => .error e
    | _ => .error (.wrapper i)

theorem length_takeWrappers {base n : Nat} {next : Option Nat} {es rest : List Event} {ks : List Kind}
    (h : takeWrappers base n next es = .ok (ks, rest)) : rest.length = es.length := by
  fun_induction takeWrappers base n next es generalizing ks rest <;> simp_all

def replayFrom (base : Nat) (ts : List Token) (s : Scaffold) : List Event → Except Malformed Scaffold
  | [] => .ok s
  | .start k next :: es =>
    match _h : takeWrappers (base + 1) es.length next es with
    | .error e => .error e
    | .ok (ks, rest) => replayFrom (base + 1) ts ((k :: ks).foldr Scaffold.start s) rest
  | .token k :: es =>
    match ts with
    | [] => replayFrom (base + 1) [] s es
    | t :: ts => replayFrom (base + 1) ts (s.push (.leaf ⟨k, t.text⟩)) es
  | .finish :: es =>
    match s.finish? with
    | none => .error .finish
    | some s => replayFrom (base + 1) ts s es
  | .placeholder :: es => replayFrom (base + 1) ts s es
termination_by es => es.length
decreasing_by
  · have := length_takeWrappers ‹_›
    simp only [List.length_cons]
    omega
  all_goals simp

/-- The tree that events describe over the tokens of a text. Token events beyond the last token are
ignored, and so are nodes left open. -/
def replay (ts : List Token) (es : List Event) : Except Malformed Tree :=
  match replayFrom 0 ts {} es with
  | .error e => .error e
  | .ok s =>
    match s.trees with
    | [.node k cs] => .ok (.node k cs)
    | _ => .error .root

end LosslessYaml.Event
