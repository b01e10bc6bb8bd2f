import LosslessYaml.Host
import LosslessYaml.Text.Alphanumeric

namespace LosslessYaml

namespace Template

inductive Segment : Type
  | text (s : List Char)
  | reference (name : List Char) (fallback : Option (List Char))
  deriving DecidableEq

def isNameChar (c : Char) : Bool := Text.isAlphanumeric c || c = '_'

def splitFallback : List Char → Option (List Char × List Char)
  | [] => none
  | ':' :: '-' :: cs => some ([], cs)
  | c :: cs => (splitFallback cs).map fun (s, t) => (c :: s, t)

/-- A variable in braces. A fallback needs a name in front of it. -/
def braced (s : List Char) : Segment :=
  match splitFallback s with
  | some (c :: cs, t) => .reference (c :: cs) (some t)
  | _ => .reference s none

theorem length_dropWhile_le (p : Char → Bool) (cs : List Char) : (cs.dropWhile p).length ≤ cs.length :=
  (List.dropWhile_sublist p).length_le

theorem length_of_dropWhile_eq {p : Char → Bool} {cs rest : List Char} {c : Char}
    (h : cs.dropWhile p = c :: rest) : rest.length < cs.length := by
  have := length_dropWhile_le p cs
  rw [h, List.length_cons] at this
  omega

/-- The parts of a path. A dollar sign written twice stands for itself, and so does one that no
variable follows, or a brace that is never closed. -/
def segments (s : List Char) : List Segment :=
  match s with
  | [] => []
  | '$' :: '{' :: cs =>
    match _h : cs.dropWhile (· ≠ '}') with
    | [] => .text ['$', '{'] :: segments cs
    | _ :: rest => braced (cs.takeWhile (· ≠ '}')) :: segments rest
  | '$' :: '$' :: cs => .text ['$'] :: segments cs
  | '$' :: cs =>
    if (cs.takeWhile isNameChar).isEmpty then .text ['$'] :: segments cs
    else .reference (cs.takeWhile isNameChar) none :: segments (cs.dropWhile isNameChar)
  | c :: cs => .text [c] :: segments cs
termination_by s.length
decreasing_by
  · simp only [List.length_cons]
    omega
  · have := length_of_dropWhile_eq ‹_›
    simp only [List.length_cons]
    omega
  · simp only [List.length_cons]
    omega
  · simp
  · have := length_dropWhile_le isNameChar cs
    simp only [List.length_cons]
    omega
  · simp

def references (s : List Char) : List String :=
  (segments s).filterMap fun
    | .reference name _ => some (String.ofList name)
    | .text _ => none

def Segment.value? (h : Host) : Segment → Option (List Char)
  | .text s => some s
  | .reference name fallback =>
    match h.environment (String.ofList name) with
    | some v => some v.toList
    | none => fallback

def expandHome (h : Host) (s : List Char) : List Char :=
  match s, h.home? with
  | ['~'], some home => home.toList
  | '~' :: '/' :: cs, some home => home.toList ++ '/' :: cs
  | _, _ => s

end Template

/-- The path that a user's text stands for. `none` if a variable is not set. A tilde that comes out
of a variable stands for itself. -/
def Host.expand? (h : Host) (path : String) : Option String := do
  let s ← (Template.segments path.toList).mapM (Template.Segment.value? h)
  let s := s.flatten
  if s.head? = some '~' && path.toList.head? ≠ some '~' then return String.ofList s
  else return String.ofList (Template.expandHome h s)

def Host.expand (h : Host) (path : String) : String := (h.expand? path).getD path

end LosslessYaml
