import LetTyping.Event
import LetTyping.Text.Alphabet
import LetTyping.Text.Quoted

/-!
# Logs

Events are shown as lines of a log, as far as a filter admits them.  A filter is a list of rules
separated by commas.  A rule is a level, a target, or a target and a level with an equals sign
between them.  A rule covers the events whose target starts with its own target; a rule without a
target covers all events, and one without a level admits every level.  Of the rules that cover an
event the one with the longest target decides, and of two rules with the same target the last one.

## Main definitions

* `Rule`, `Filter` — log filters.
* `Filter.parse?` — reads a filter.
* `Filter.admits` — whether an event is shown.
* `Event.line` — the line of an event.
-/

namespace LetTyping

/-- The lowest level that is shown, or `none` if nothing is. -/
abbrev Threshold := Option Level

/-- A rule of a filter. -/
structure Rule where
  /-- What the targets of the covered events start with. -/
  target : String
  /-- The lowest level that is shown. -/
  threshold : Threshold

/-- The rules of a filter. -/
abbrev Filter := List Rule

/-- Reads a threshold: the name of a level, `off`, or a number from 0 for `off` to 5 for the lowest
level.  Upper and lower case letters count as equal. -/
def Threshold.parse? (text : String) : Option Threshold :=
  match text.toLower with
  | "off" | "0" => some none
  | "error" | "1" => some (some .error)
  | "warn" | "2" => some (some .warn)
  | "info" | "3" => some (some .info)
  | "debug" | "4" => some (some .debug)
  | "trace" | "5" => some (some .trace)
  | _ => none

/-- Whether a character may start a rule. -/
def startsRule (c : Char) : Bool :=
  isAlphabetic c || isNumeric c || c = '-' || c = ':' || c = '_'

/-- Reads a rule from its characters. -/
def Rule.parse? (text : List Char) : Option Rule :=
  if (text.dropWhile isBlank).head?.any startsRule then
    let target := String.ofList (text.takeWhile (· ≠ '='))
    match text.dropWhile (· ≠ '=') with
    | [] =>
      match Threshold.parse? target with
      | some threshold => some ⟨"", threshold⟩
      | none => some ⟨target, some .trace⟩
    | [_] => some ⟨target, some .trace⟩
    | _ :: level =>
      (Threshold.parse? (String.ofList level)).map fun threshold => ⟨target, threshold⟩
  else none

/-- Splits a text at the commas. -/
def splitCommas : List Char → List (List Char)
  | [] => [[]]
  | c :: cs =>
    match splitCommas cs with
    | [] => [[c]]
    | part :: parts => if c = ',' then [] :: part :: parts else (c :: part) :: parts

/-- Reads a filter.  Empty rules are skipped. -/
def Filter.parse? (text : String) : Option Filter :=
  ((splitCommas text.toList).filter fun part => !part.isEmpty).mapM Rule.parse?

/-- Whether a rule covers an event. -/
def Rule.covers (r : Rule) (e : Event) : Bool := r.target.toList.isPrefixOf e.target.toList

/-- The better of two rules for an event: one that covers it rather than none, and otherwise the one
with the longer target. -/
def Rule.decide (e : Event) (best : Option Rule) (r : Rule) : Option Rule :=
  if r.covers e && best.all (fun b => b.target.length ≤ r.target.length) then some r else best

/-- Whether a filter lets an event be shown. -/
def Filter.admits (f : Filter) (e : Event) : Bool :=
  match f.foldl (Rule.decide e) none with
  | some ⟨_, some lowest⟩ => lowest.rank ≤ e.level.rank
  | _ => false

/-- A field as it is shown. -/
def Field.text : Field → String
  | number n => Decimal.ofNat n
  | quoted word => LetTyping.quoted word
  | plain text => text

/-- The line of an event in a log. -/
def Event.line (e : Event) : String :=
  e.level.name ++ " " ++ e.target ++ ": " ++ e.message ++
    String.join (e.fields.map fun (name, value) => " " ++ name ++ "=" ++ value.text)

end LetTyping
