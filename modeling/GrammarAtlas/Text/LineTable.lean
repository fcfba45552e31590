import GrammarAtlas.Text.Location

/-! # From byte offsets to positions

`positionAt` counts: it reads the text up to an offset. `LineTable` answers the same question
without reading the text again: the table holds the byte offset at which each line starts, and of
every character of more than one byte where it starts and how many surplus bytes precede it. Both
lists ascend, so a position takes a few binary searches. -/

namespace GrammarAtlas

def Position.after (p : Position) (c : Char) : Position :=
  if c = '\n' then ⟨p.line + 1, 0⟩ else ⟨p.line, p.column + 1⟩

/-- The position of the last boundary of `cs` that is not past byte `offset`. -/
def positionAt (cs : List Char) (offset : Nat) : Position :=
  go ⟨1, 0⟩ offset cs
where
  go (p : Position) (left : Nat) : List Char → Position
    | [] => p
    | c :: cs => if c.utf8Size ≤ left then go (p.after c) (left - c.utf8Size) cs else p

/-- The number of leading indices below `size` at which `p` holds, provided that `p` holds on a
first stretch of them only. Each turn settles one binary digit, the highest first. -/
def leadingCount (p : Nat → Bool) (size : Nat) : Nat :=
  go (size.log2 + 1) 0
where
  go : Nat → Nat → Nat
    | 0, found => found
    | digit + 1, found =>
      let next := found + (1 <<< digit)
      if next ≤ size && p (next - 1) then go digit next else go digit found

structure WideChar where
  start : Nat
  width : Nat
  /-- The surplus bytes of the wide characters before this one. -/
  surplus : Nat
deriving Repr, DecidableEq, Inhabited

structure LineTable where
  size : Nat
  /-- Where each line starts, the first line included. -/
  starts : Array Nat
  wide : Array WideChar
deriving Repr

namespace LineTable

/-- Enters the characters from byte `offset` on into the table. -/
def extend (table : LineTable) (offset surplus : Nat) : List Char → LineTable
  | [] => { table with size := offset }
  | c :: cs =>
    let next := offset + c.utf8Size
    if c = '\n' then
      extend { table with starts := table.starts.push next } next surplus cs
    else if c.utf8Size = 1 then extend table next surplus cs
    else
      extend { table with wide := table.wide.push ⟨offset, c.utf8Size, surplus⟩ } next
        (surplus + c.utf8Size - 1) cs

def ofChars (cs : List Char) : LineTable :=
  extend ⟨0, #[0], #[]⟩ 0 0 cs

/-- The last wide character that starts before `offset`. -/
def wideBefore? (table : LineTable) (offset : Nat) : Option WideChar :=
  match leadingCount (fun i => (table.wide.getD i default).start < offset) table.wide.size with
  | 0 => none
  | n + 1 => table.wide[n]?

/-- The last boundary that is not past `offset`. -/
def boundary (table : LineTable) (offset : Nat) : Nat :=
  let offset := min offset table.size
  match table.wideBefore? offset with
  | some w => if offset < w.start + w.width then w.start else offset
  | none => offset

/-- How many bytes the characters before a boundary have beyond one each. -/
def surplusBefore (table : LineTable) (boundary : Nat) : Nat :=
  match table.wideBefore? boundary with
  | some w => w.surplus + w.width - 1
  | none => 0

def position (table : LineTable) (offset : Nat) : Position :=
  let boundary := table.boundary offset
  let line := leadingCount (fun i => table.starts.getD i 0 ≤ boundary) table.starts.size
  let start := table.starts.getD (line - 1) 0
  ⟨line, boundary - start - (table.surplusBefore boundary - table.surplusBefore start)⟩

def mark (table : LineTable) (offset : Nat) : Mark := ⟨offset, table.position offset⟩

def locate (table : LineTable) (start stop : Nat) : Location :=
  ⟨table.mark start, table.mark stop⟩

end LineTable

end GrammarAtlas
