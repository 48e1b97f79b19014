import LetTyping.State

/-!
# The prelude

The names that every program may use without declaring them: arithmetic on integers, the unit value,
and operations on pairs.

## Main definitions

* `prelude` — the builtin names with their typings.
-/

namespace LetTyping

/-- The type of functions with one parameter, a pair. -/
def pairFn (a b result : Ty) : Ty := .arrow (.product [.product [a, b]]) result

/-- The builtin names.  The variables of the polymorphic ones are fresh. -/
def prelude : StateM State Defined := do
  let binary := Ty.arrow (.product [.int, .int]) .int
  let a ← fresh
  let b ← fresh
  let c ← fresh
  let d ← fresh
  let e ← fresh
  let f ← fresh
  return [
    ("add", .closed binary),
    ("sub", .closed binary),
    ("mul", .closed binary),
    ("neg", .closed (.arrow (.product [.int]) .int)),
    ("unit", .closed .unit),
    ("fst", .closed (pairFn a b a)),
    ("snd", .closed (pairFn c d d)),
    ("swap", .closed (pairFn e f (.product [f, e])))]

end LetTyping
