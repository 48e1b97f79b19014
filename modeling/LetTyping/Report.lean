import LetTyping.Fault
import LetTyping.Text.Line

/-!
# Reports

What is shown to the author of a program about a fault or a problem: a headline, the place, and
texts that help.  A mismatch that stops the work has a headline and a note of its own.

## Main definitions

* `Report` — a headline with a place and texts that help.
* `Report.ofFault` — the report of what stopped the work on a program.
* `Report.ofProblem` — the report of a problem in a program with a typing.
-/

namespace LetTyping

/-- What is shown about a fault or a problem. -/
structure Report where
  /-- The headline. -/
  headline : String
  /-- Where the fault or the problem is. -/
  offset : Nat
  /-- What may help. -/
  help : List String := []
  /-- What else is known. -/
  note : List String := []
  deriving DecidableEq

/-- What may help against a problem. -/
def TypeCause.help : TypeCause → List String
  | infinite _ _ none => ["This would create an infinite type"]
  | infinite _ _ (some description) =>
    ["This would create an infinite type while checking the " ++ description]
  | recursive _ => ["Declarations may not refer to themselves, directly or indirectly"]
  | application _ _ =>
    ["Arguments are passed as one tuple; check the number and types of arguments"]
  | arrayLiteral | assignment _ => ["This construct parses but cannot be type checked"]
  | mismatch .. | unbound _ => []

namespace Report

/-- The report of a problem. -/
def ofProblem (p : Problem) : Report := ⟨p.val.message, p.span.start, p.val.help, []⟩

/-- The report of what stopped the work on a program. -/
def ofFault : Fault → Report
  | .type ⟨.mismatch expected found during, span⟩ =>
    { headline := "Type mismatch: expected '" ++ expected ++ "', found '" ++ found ++ "'"
      offset := span.start
      help := (during.map fun description => "while checking the " ++ description).toList
      note := ["Cannot unify expected '" ++ expected ++ "' with found '" ++ found ++ "'"] }
  | .type p => ofProblem p
  | fault => ⟨fault.message, fault.span.start, [], []⟩

/-- The place of a report, as file, line and column.  A place beyond the end of the text is not
known. -/
def place (r : Report) (file source : String) : String :=
  match placeOf? source r.offset with
  | some p => file ++ ":" ++ Decimal.ofNat p.line ++ ":" ++ Decimal.ofNat p.column
  | none => file ++ ":?:?"

end Report

end LetTyping
