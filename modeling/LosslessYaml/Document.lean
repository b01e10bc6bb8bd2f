import LosslessYaml.Text.Blank
import LosslessYaml.Text.Offset
import LosslessYaml.Text.Utf8

/-!
A text with its lines and columns. Offsets are bytes and are clamped to the length of the text.
Columns count characters, a tab taking them to the next multiple of the tab size, and must fit in
32 bits.
-/

namespace LosslessYaml

inductive Fault : Type
  | insideCharacter
  | columnOverflow
  deriving DecidableEq

def columnLimit : Nat := 0x100000000

/-- One line, numbered from 1, without its line break. `stop` is the offset of the line break. -/
structure Line : Type where
  number : Nat
  start : Nat
  text : List Char
  deriving DecidableEq

namespace Line

def stop (l : Line) : Nat := l.start + Text.byteLength l.text

/-- Splits a text after each line feed. The last piece has none and may be empty. -/
def split : List Char → List (List Char)
  | [] => [[]]
  | c :: cs =>
    if c = '\n' then [c] :: split cs
    else
      match split cs with
      | [] => [[c]]
      | l :: ls => (c :: l) :: ls

/-- A line without its line break. A carriage return counts as part of the line break only in front
of a line feed. -/
def chomp : List Char → List Char
  | [] => []
  | ['\n'] => []
  | ['\r', '\n'] => []
  | c :: cs => c :: chomp cs

def numberFrom : Nat → Nat → List (List Char) → List Line
  | _, _, [] => []
  | k, n, l :: ls => ⟨k, n, chomp l⟩ :: numberFrom (k + 1) (n + Text.byteLength l) ls

def ofText (s : List Char) : List Line := numberFrom 1 0 (split s)

def holding (n : Nat) (l : Line) : List Line → Line
  | [] => l
  | m :: ms => if m.start ≤ n then holding n m ms else l

theorem split_ne_nil (s : List Char) : split s ≠ [] := by
  cases s with
  | nil => simp [split]
  | cons c cs =>
    rw [split]
    split
    · simp
    · split <;> simp

@[simp] theorem flatten_split (s : List Char) : (split s).flatten = s := by
  induction s with
  | nil => rfl
  | cons c cs ih =>
    rw [split]
    split
    · simp_all
    · split
      · next h => exact absurd h (split_ne_nil cs)
      · next l ls h => simp_all

def before (l : Line) (n : Nat) : List Char := Text.front n l.text

def after (l : Line) (n : Nat) : List Char := ((Text.cut? n l.text).map Prod.snd).getD []

def indentation (l : Line) : List Char := l.text.takeWhile Text.isBlank

end Line

def Column.next (tab col : Nat) (c : Char) : Except Fault Nat :=
  if c = '\t' then
    if col + tab < columnLimit then .ok (col + tab - col % tab) else .error .columnOverflow
  else if col + 1 < columnLimit then .ok (col + 1)
  else .error .columnOverflow

def Column.count (tab : Nat) (s : List Char) : Except Fault Nat := s.foldlM (Column.next tab) 0

def Column.add (m n : Nat) : Except Fault Nat :=
  if m + n < columnLimit then .ok (m + n) else .error .columnOverflow

structure Document : Type where
  text : List Char
  tabSize : Nat := 4
  lines : List Line := Line.ofText text
  size : Nat := Text.byteLength text
  tabSize_pos : 0 < tabSize := by decide
  lines_eq : lines = Line.ofText text := by rfl
  size_eq : size = Text.byteLength text := by rfl

namespace Document

def ofText (s : List Char) : Document := { text := s }

def ofBytes (bs : List UInt8) : Except Utf8.Malformed Document := (Utf8.decode bs).map ofText

def unreadable (e : Utf8.Malformed) : String := "Document is not valid UTF-8: " ++ e.message

def withTabSize (d : Document) (n : Nat) : Document :=
  { d with tabSize := max n 1, tabSize_pos := by omega }

def lineCount (d : Document) : Nat := d.lines.length

def line? (d : Document) (k : Nat) : Option Line := if k = 0 then none else d.lines[k - 1]?

def lineHolding (d : Document) (n : Nat) : Line :=
  match d.lines with
  | [] => ⟨1, 0, []⟩
  | l :: ls => l.holding (min n d.size) ls

def lineAt (d : Document) (n : Nat) : Except Fault Line :=
  if Text.isBoundary (min n d.size) d.text then .ok (d.lineHolding n) else .error .insideCharacter

/-- The text between two offsets. Ends of an empty stretch may be anywhere. -/
def slice (d : Document) (a b : Nat) : Except Fault (List Char) :=
  let b := min b d.size
  let a := min a b
  if a = b then .ok []
  else
    match Text.cut? b d.text with
    | none => .error .insideCharacter
    | some (s, _) =>
      match Text.cut? a s with
      | none => .error .insideCharacter
      | some (_, t) => .ok t

def sub (d : Document) (a b : Nat) : Except Fault Document :=
  (d.slice a b).map fun s => { text := s, tabSize := d.tabSize, tabSize_pos := d.tabSize_pos }

def lineIndent (d : Document) (n : Nat) : Except Fault Nat := do
  Column.count d.tabSize (← d.lineAt n).indentation

def column (d : Document) (n : Nat) : Except Fault Nat := do
  let l ← d.lineAt n
  Column.count d.tabSize (l.before (min n l.stop - l.start))

def textAfter (d : Document) (n : Nat) : Except Fault (List Char) := do
  let l ← d.lineAt n
  return l.after (min n l.stop - l.start)

end Document

end LosslessYaml
