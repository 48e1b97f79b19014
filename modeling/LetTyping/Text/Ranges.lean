/-!
# Sets of characters given by ranges

A property of characters is written down as the list of the ranges of code points that have it, in
rising order.

## Main definitions

* `Ranges` — inclusive ranges of code points.
* `Ranges.has` — whether a character lies in one of them.
-/

namespace LetTyping

/-- Inclusive ranges of code points, in rising order. -/
abbrev Ranges := List (Nat × Nat)

/-- Whether a code point lies in one of the ranges.  The search ends at the first range that starts
beyond it. -/
def Ranges.hasCode : Ranges → Nat → Bool
  | [], _ => false
  | (lo, hi) :: rs, n => if n < lo then false else if n ≤ hi then true else Ranges.hasCode rs n

/-- Whether a character lies in one of the ranges. -/
def Ranges.has (rs : Ranges) (c : Char) : Bool := rs.hasCode c.toNat

end LetTyping
