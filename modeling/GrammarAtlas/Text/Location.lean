import GrammarAtlas.Text.Bytes

/-! # Positions and locations

A `Position` is what a reader of the text sees: lines count from 1, columns from 0, and a column is
a number of characters. A `Mark` adds the byte offset of that place, and a `Location` is the stretch
between two marks. Locations are plain data: `Location.defect?` says whether one fits a text. -/

namespace GrammarAtlas

structure Position where
  line : Nat
  column : Nat
deriving Repr, DecidableEq, Inhabited

namespace Position

/-- Reading order: by line, then by column. -/
def precedes (a b : Position) : Bool :=
  a.line < b.line || (a.line == b.line && a.column ≤ b.column)

def text (p : Position) : String :=
  "line: " ++ toString p.line ++ ", column: " ++ toString p.column

end Position

/-- A place in a text: its byte offset, and its position. -/
structure Mark where
  offset : Nat
  position : Position
deriving Repr, DecidableEq, Inhabited

/-- The place before the first character. -/
def Mark.origin : Mark := ⟨0, ⟨1, 0⟩⟩

/-- The stretch of text from `start` up to, and without, `stop`. -/
structure Location where
  start : Mark
  stop : Mark
deriving Repr, DecidableEq, Inhabited

namespace Location

/-- The location of nothing, which is on no line of any text. -/
def nowhere : Location := ⟨⟨0, ⟨0, 0⟩⟩, ⟨0, ⟨0, 0⟩⟩⟩

inductive Defect where
  | reversed (start stop : Nat)
  | beyond (stop size : Nat)
  | startInside (start : Nat)
  | stopInside (stop : Nat)
deriving Repr, DecidableEq

def Defect.message : Defect → String
  | reversed start stop =>
    "Invalid range: start " ++ toString start ++ " > end " ++ toString stop
  | beyond stop size =>
    "End offset " ++ toString stop ++ " exceeds input length " ++ toString size
  | startInside start => "Start offset " ++ toString start ++ " not on UTF-8 boundary"
  | stopInside stop => "End offset " ++ toString stop ++ " not on UTF-8 boundary"

/-- The first reason why `l` does not fit the text `cs`, if there is one. -/
def defect? (l : Location) (cs : List Char) : Option Defect :=
  if l.stop.offset < l.start.offset then some (.reversed l.start.offset l.stop.offset)
  else if byteLength cs < l.stop.offset then some (.beyond l.stop.offset (byteLength cs))
  else if !isBoundary cs l.start.offset then some (.startInside l.start.offset)
  else if !isBoundary cs l.stop.offset then some (.stopInside l.stop.offset)
  else none

/-- Whether the byte at `offset` belongs to the location. -/
def contains (l : Location) (offset : Nat) : Bool :=
  l.start.offset ≤ offset && offset < l.stop.offset

def slice? (l : Location) (cs : List Char) : Option String :=
  (sliceBytes cs l.start.offset l.stop.offset).map String.ofList

def text (l : Location) : String :=
  "location.start(" ++ l.start.position.text ++ "), location.end(" ++ l.stop.position.text ++ ")"

end Location

end GrammarAtlas
