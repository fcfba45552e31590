/-! # Texts by byte offset

A text is a list of characters; offsets into it count the bytes of its UTF-8 form. An offset is a
*boundary* if no character straddles it, and only boundaries can cut a text. -/

namespace GrammarAtlas

/-- The number of bytes of `cs` in UTF-8. -/
def byteLength : List Char → Nat
  | [] => 0
  | c :: cs => c.utf8Size + byteLength cs

/-- Cuts `cs` at byte `n`; there is no cut inside a character or past the end. -/
def splitAtByte : Nat → List Char → Option (List Char × List Char)
  | 0, cs => some ([], cs)
  | _ + 1, [] => none
  | n + 1, c :: cs =>
    if c.utf8Size ≤ n + 1 then
      (splitAtByte (n + 1 - c.utf8Size) cs).map fun (before, after) => (c :: before, after)
    else none

/-- Whether `n` lies within `cs` or at its end, and between two characters. -/
def isBoundary (cs : List Char) (n : Nat) : Bool := (splitAtByte n cs).isSome

/-- The characters of `cs` from byte `start` up to byte `stop`, if both are boundaries in order. -/
def sliceBytes (cs : List Char) (start stop : Nat) : Option (List Char) :=
  if start ≤ stop then do
    let (_, rest) ← splitAtByte start cs
    let (middle, _) ← splitAtByte (stop - start) rest
    return middle
  else none

end GrammarAtlas
