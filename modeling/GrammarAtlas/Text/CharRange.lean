/-! # Ranges of characters

A property of characters is kept as an ascending list of ranges that neither meet nor overlap. A
range has a step, because in the cased scripts capital and small letters alternate: every other
code point of such a stretch has the property. -/

namespace GrammarAtlas

/-- The code points `first`, `first + step`, … up to `last`. -/
structure CharRange where
  first : Nat
  last : Nat
  step : Nat
deriving Repr, DecidableEq

namespace CharRange

/-- Every code point from `first` to `last`. -/
def run (first last : Nat) : CharRange := ⟨first, last, 1⟩

/-- A single code point. -/
def one (c : Nat) : CharRange := ⟨c, c, 1⟩

/-- Every other code point from `first` to `last`. -/
def alternate (first last : Nat) : CharRange := ⟨first, last, 2⟩

/-- Membership of a code point in an ascending list of ranges. -/
def holds : List CharRange → Nat → Bool
  | [], _ => false
  | r :: rs, c =>
    if c < r.first then false
    else if c ≤ r.last then (c - r.first) % r.step == 0
    else holds rs c

end CharRange

end GrammarAtlas
