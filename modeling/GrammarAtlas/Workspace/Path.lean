/-! # Paths

A path is a sequence of bytes. Most often they are a text in UTF-8. Where they are not, a replacement
character is displayed, so that different paths can be displayed alike. -/

namespace GrammarAtlas

structure Path where
  bytes : List UInt8
deriving Repr, DecidableEq

namespace Path

def ofString (s : String) : Path := ⟨s.toUTF8.data.toList⟩

/-- The ranges of the bytes behind a first byte, in UTF-8. -/
def ranges? (first : UInt8) : Option (List (UInt8 × UInt8)) :=
  let any : UInt8 × UInt8 := (0x80, 0xBF)
  if first < 0x80 then some []
  else if first < 0xC2 then none
  else if first < 0xE0 then some [any]
  else if first = 0xE0 then some [(0xA0, 0xBF), any]
  else if first = 0xED then some [(0x80, 0x9F), any]
  else if first < 0xF0 then some [any, any]
  else if first = 0xF0 then some [(0x90, 0xBF), any, any]
  else if first < 0xF4 then some [any, any, any]
  else if first = 0xF4 then some [(0x80, 0x8F), any, any]
  else none

/-- A character of which some bytes have been read, with the ranges of the others. -/
structure Fragment where
  code : Nat
  range : UInt8 × UInt8
  later : List (UInt8 × UInt8)

def replacement : Char := '\uFFFD'

/-- Begins a character. -/
def start (b : UInt8) : List Char × Option Fragment :=
  match ranges? b with
  | none => ([replacement], none)
  | some [] => ([Char.ofNat b.toNat], none)
  | some (range :: later) => ([], some ⟨b.toNat % (32 >>> later.length), range, later⟩)

/-- Reads a byte. A character that it cannot belong to is replaced. -/
def next (fragment? : Option Fragment) (b : UInt8) : List Char × Option Fragment :=
  match fragment? with
  | none => start b
  | some ⟨code, (low, high), later⟩ =>
    if low ≤ b ∧ b ≤ high then
      let code := 64 * code + b.toNat % 64
      match later with
      | [] => ([Char.ofNat code], none)
      | range :: later => ([], some ⟨code, range, later⟩)
    else
      let (cs, fragment?) := start b
      (replacement :: cs, fragment?)

def decode : Option Fragment → List UInt8 → List Char
  | none, [] => []
  | some _, [] => [replacement]
  | fragment?, b :: bs =>
    let (cs, fragment?) := next fragment? b
    cs ++ decode fragment? bs

def display (p : Path) : String :=
  match String.fromUTF8? ⟨p.bytes.toArray⟩ with
  | some s => s
  | none => String.ofList (decode none p.bytes)

@[simp] theorem display_ofString (s : String) : (ofString s).display = s := by
  have hbytes : (⟨(ofString s).bytes.toArray⟩ : ByteArray) = s.toUTF8 := rfl
  have hs : String.fromUTF8? s.toUTF8 = some s := dif_pos s.isValidUTF8
  rw [display, hbytes, hs]

/-- The first byte begins a character of three bytes, and the second one goes on with it. -/
example : decode none [0xE2, 0x82, 0x41, 0xE2, 0x82, 0xAC, 0xFF] =
    [replacement, 'A', '€', replacement] := by decide

end Path

end GrammarAtlas
