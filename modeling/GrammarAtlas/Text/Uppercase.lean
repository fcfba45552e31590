import GrammarAtlas.Text.CharRange

/-! # Upper-case characters

The ranges of the Unicode property `Uppercase`: capital letters, capital numerals and capital letters
in circles and squares. Title-case letters are not among them. -/

namespace GrammarAtlas.Uppercase

/-- Capitals of the basic plane. -/
def basic : List CharRange :=
  [.run 0x41 0x5A, .run 0xC0 0xD6, .run 0xD8 0xDE, .alternate 0x100 0x136,
   .alternate 0x139 0x147, .alternate 0x14A 0x176, .run 0x178 0x179, .alternate 0x17B 0x17D,
   .run 0x181 0x182, .one 0x184, .run 0x186 0x187, .run 0x189 0x18B, .run 0x18E 0x191,
   .run 0x193 0x194, .run 0x196 0x198, .run 0x19C 0x19D, .run 0x19F 0x1A0,
   .alternate 0x1A2 0x1A4, .run 0x1A6 0x1A7, .one 0x1A9, .one 0x1AC, .run 0x1AE 0x1AF,
   .run 0x1B1 0x1B3, .one 0x1B5, .run 0x1B7 0x1B8, .one 0x1BC, .one 0x1C4, .one 0x1C7,
   .one 0x1CA, .alternate 0x1CD 0x1DB, .alternate 0x1DE 0x1EE, .one 0x1F1, .one 0x1F4,
   .run 0x1F6 0x1F8, .alternate 0x1FA 0x232, .run 0x23A 0x23B, .run 0x23D 0x23E, .one 0x241,
   .run 0x243 0x246, .alternate 0x248 0x24E, .alternate 0x370 0x372, .one 0x376, .one 0x37F,
   .one 0x386, .run 0x388 0x38A, .one 0x38C, .run 0x38E 0x38F, .run 0x391 0x3A1,
   .run 0x3A3 0x3AB, .one 0x3CF, .run 0x3D2 0x3D4, .alternate 0x3D8 0x3EE, .one 0x3F4,
   .one 0x3F7, .run 0x3F9 0x3FA, .run 0x3FD 0x42F, .alternate 0x460 0x480,
   .alternate 0x48A 0x4BE, .run 0x4C0 0x4C1, .alternate 0x4C3 0x4CD, .alternate 0x4D0 0x52E,
   .run 0x531 0x556, .run 0x10A0 0x10C5, .one 0x10C7, .one 0x10CD, .run 0x13A0 0x13F5,
   .one 0x1C89, .run 0x1C90 0x1CBA, .run 0x1CBD 0x1CBF, .alternate 0x1E00 0x1E94,
   .alternate 0x1E9E 0x1EFE, .run 0x1F08 0x1F0F, .run 0x1F18 0x1F1D, .run 0x1F28 0x1F2F,
   .run 0x1F38 0x1F3F, .run 0x1F48 0x1F4D, .alternate 0x1F59 0x1F5F, .run 0x1F68 0x1F6F,
   .run 0x1FB8 0x1FBB, .run 0x1FC8 0x1FCB, .run 0x1FD8 0x1FDB, .run 0x1FE8 0x1FEC,
   .run 0x1FF8 0x1FFB, .one 0x2102, .one 0x2107, .run 0x210B 0x210D, .run 0x2110 0x2112,
   .one 0x2115, .run 0x2119 0x211D, .alternate 0x2124 0x2128, .run 0x212A 0x212D,
   .run 0x2130 0x2133, .run 0x213E 0x213F, .one 0x2145, .run 0x2160 0x216F, .one 0x2183,
   .run 0x24B6 0x24CF, .run 0x2C00 0x2C2F, .one 0x2C60, .run 0x2C62 0x2C64,
   .alternate 0x2C67 0x2C6B, .run 0x2C6D 0x2C70, .one 0x2C72, .one 0x2C75, .run 0x2C7E 0x2C80,
   .alternate 0x2C82 0x2CE2, .alternate 0x2CEB 0x2CED, .one 0x2CF2, .alternate 0xA640 0xA66C,
   .alternate 0xA680 0xA69A, .alternate 0xA722 0xA72E, .alternate 0xA732 0xA76E,
   .alternate 0xA779 0xA77B, .run 0xA77D 0xA77E, .alternate 0xA780 0xA786,
   .alternate 0xA78B 0xA78D, .alternate 0xA790 0xA792, .alternate 0xA796 0xA7A8,
   .run 0xA7AA 0xA7AE, .run 0xA7B0 0xA7B4, .alternate 0xA7B6 0xA7C2, .run 0xA7C4 0xA7C7,
   .one 0xA7C9, .run 0xA7CB 0xA7CC, .alternate 0xA7CE 0xA7DC, .one 0xA7F5, .run 0xFF21 0xFF3A]

/-- Capitals of the supplementary planes. -/
def supplementary : List CharRange :=
  [.run 0x10400 0x10427, .run 0x104B0 0x104D3, .run 0x10570 0x1057A, .run 0x1057C 0x1058A,
   .run 0x1058C 0x10592, .run 0x10594 0x10595, .run 0x10C80 0x10CB2, .run 0x10D50 0x10D65,
   .run 0x118A0 0x118BF, .run 0x16E40 0x16E5F, .run 0x16EA0 0x16EB8, .run 0x1D400 0x1D419,
   .run 0x1D434 0x1D44D, .run 0x1D468 0x1D481, .one 0x1D49C, .run 0x1D49E 0x1D49F, .one 0x1D4A2,
   .run 0x1D4A5 0x1D4A6, .run 0x1D4A9 0x1D4AC, .run 0x1D4AE 0x1D4B5, .run 0x1D4D0 0x1D4E9,
   .run 0x1D504 0x1D505, .run 0x1D507 0x1D50A, .run 0x1D50D 0x1D514, .run 0x1D516 0x1D51C,
   .run 0x1D538 0x1D539, .run 0x1D53B 0x1D53E, .run 0x1D540 0x1D544, .one 0x1D546,
   .run 0x1D54A 0x1D550, .run 0x1D56C 0x1D585, .run 0x1D5A0 0x1D5B9, .run 0x1D5D4 0x1D5ED,
   .run 0x1D608 0x1D621, .run 0x1D63C 0x1D655, .run 0x1D670 0x1D689, .run 0x1D6A8 0x1D6C0,
   .run 0x1D6E2 0x1D6FA, .run 0x1D71C 0x1D734, .run 0x1D756 0x1D76E, .run 0x1D790 0x1D7A8,
   .one 0x1D7CA, .run 0x1E900 0x1E921, .run 0x1F130 0x1F149, .run 0x1F150 0x1F169,
   .run 0x1F170 0x1F189]

def ranges : List CharRange :=
  basic ++ supplementary

end GrammarAtlas.Uppercase

namespace GrammarAtlas

/-- Characters that make a name a token name when they begin it. -/
def isUppercase (c : Char) : Bool :=
  CharRange.holds Uppercase.ranges c.toNat

end GrammarAtlas
