import GrammarAtlas.Text.Location

/-! # Editor positions

Editors count lines and characters from 0, and in 32 bits. -/

namespace GrammarAtlas

structure EditorPosition where
  line : Nat
  character : Nat
deriving Repr, DecidableEq

structure EditorRange where
  start : EditorPosition
  stop : EditorPosition
deriving Repr, DecidableEq

namespace EditorPosition

/-- The largest number that an editor takes: the largest of 32 bits. -/
def limit : Nat := 4294967295

/-- Larger numbers than the editor takes stop at its limit. -/
def ofPosition (p : Position) : EditorPosition :=
  ⟨min (p.line - 1) limit, min p.column limit⟩

def text (p : EditorPosition) : String := toString p.line ++ ":" ++ toString p.character

/-- The lines of a text, without the newlines that divide them. -/
def linesOf : List Char → List (List Char)
  | [] => [[]]
  | c :: cs =>
    if c = '\n' then [] :: linesOf cs
    else
      match linesOf cs with
      | [] => [[c]]
      | line :: lines => (c :: line) :: lines

/-- A line without the carriage return at its end, if it has one. -/
def withoutReturn (line : List Char) : List Char :=
  if line.getLast? = some '\r' then line.dropLast else line

/-- The byte offset of an editor position in the given lines of a text. Characters past the end of
a line count as its end; there is nothing past the last line. -/
def offsetIn? (character : Nat) : Nat → List (List Char) → Option Nat
  | _, [] => none
  | 0, line :: _ => some (byteLength ((withoutReturn line).take character))
  | n + 1, line :: lines => (offsetIn? character n lines).map (· + byteLength line + 1)

def offset? (p : EditorPosition) (cs : List Char) : Option Nat :=
  offsetIn? p.character p.line (linesOf cs)

end EditorPosition

def EditorRange.ofLocation (l : Location) : EditorRange :=
  ⟨.ofPosition l.start.position, .ofPosition l.stop.position⟩

end GrammarAtlas
