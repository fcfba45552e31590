import GrammarAtlas.Text.CharRange

/-! # Blank characters

The ranges of the Unicode property `White_Space`. The zero-width space and the byte order mark are
not blank. -/

namespace GrammarAtlas

/-- The ranges of blank characters, ascending. -/
def Blank.ranges : List CharRange :=
  [.run 0x9 0xD, .one 0x20, .one 0x85, .one 0xA0, .one 0x1680, .run 0x2000 0x200A,
   .run 0x2028 0x2029, .one 0x202F, .one 0x205F, .one 0x3000]

/-- Characters that separate tokens and mean nothing else. -/
def isBlank (c : Char) : Bool :=
  CharRange.holds Blank.ranges c.toNat

end GrammarAtlas
