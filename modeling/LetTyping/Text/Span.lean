/-!
# Spans of source text

Positions are byte offsets into the UTF-8 form of the source text.

## Main definitions

* `Span` — the bytes from one position up to another.
* `Located` — a value together with the span it was read from.
-/

namespace LetTyping

/-- The bytes of a source text from `start` up to, but not including, `stop`. -/
structure Span where
  /-- Position of the first byte. -/
  start : Nat
  /-- Position after the last byte. -/
  stop : Nat
  deriving DecidableEq, Inhabited

/-- A value together with the span of source text it stands for. -/
structure Located (α : Type) where
  /-- The value. -/
  val : α
  /-- Where it stands. -/
  span : Span
  deriving DecidableEq

end LetTyping
