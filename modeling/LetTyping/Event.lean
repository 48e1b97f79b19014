import LetTyping.Text.Decimal

/-!
# Events

What the work on a program reports while it goes on.

## Main definitions

* `Level` — how much an event matters.
* `Event` — the events.
* `Event.level`, `Event.message`, `Event.fields`, `Event.target` — how an event is shown.
-/

namespace LetTyping

/-- How much an event matters, least first. -/
inductive Level where
  | trace
  | debug
  | info
  | warn
  | error
  deriving DecidableEq, Inhabited

/-- The rank of a level: the more an event matters, the higher. -/
def Level.rank : Level → Nat
  | trace => 0
  | debug => 1
  | info => 2
  | warn => 3
  | error => 4

/-- The word for a level. -/
def Level.name : Level → String
  | trace => "TRACE"
  | debug => "DEBUG"
  | info => "INFO"
  | warn => "WARN"
  | error => "ERROR"

/-- What the work on a program reports. -/
inductive Event where
  /-- A program was read. -/
  | checking (file : String) (bytes : Nat)
  /-- A statement of a block is about to be inferred. -/
  | statement (kind : String) (start : Nat)
  /-- A function could not be applied to its argument. -/
  | applicationFailed (error : String) (start : Nat)
  /-- The uses of a name were resolved against its declaration. -/
  | resolved (name : String) (uses : Nat)
  /-- The program has a typing. -/
  | inferred (allocated freeNames : Nat)
  /-- The free names of the program were resolved against the builtin names. -/
  | preludeResolved (unresolved : Nat)
  /-- Some free names of a declaration could not be resolved for its signature. -/
  | partlyUnresolved (name error : String)
  /-- The work on the program is done. -/
  | checked (problems : Nat)
  deriving DecidableEq

/-- The value of a field of an event. -/
inductive Field where
  /-- A count or a position. -/
  | number (n : Nat)
  /-- A word of the program, shown in quotes. -/
  | quoted (text : String)
  /-- A text shown as it is. -/
  | plain (text : String)

namespace Event

/-- How much an event matters. -/
def level : Event → Level
  | checking .. | inferred .. | checked .. => .info
  | statement .. => .trace
  | applicationFailed .. | resolved .. | preludeResolved .. | partlyUnresolved .. => .debug

/-- What happened, in words. -/
def message : Event → String
  | checking .. => "checking"
  | statement .. => "block statement"
  | applicationFailed .. => "application failed"
  | resolved .. => "resolved against declaration"
  | inferred .. => "inference finished"
  | preludeResolved .. => "prelude resolution finished"
  | partlyUnresolved .. => "declaration type left partly unresolved"
  | checked .. => "check finished"

/-- The particulars of an event, in the order in which they are shown. -/
def fields : Event → List (String × Field)
  | checking file bytes => [("file", .plain file), ("bytes", .number bytes)]
  | statement kind start => [("kind", .quoted kind), ("start", .number start)]
  | applicationFailed error start => [("error", .plain error), ("start", .number start)]
  | resolved name uses => [("name", .quoted name), ("uses", .number uses)]
  | inferred allocated freeNames =>
    [("variables", .number allocated), ("free_names", .number freeNames)]
  | preludeResolved unresolved => [("unresolved", .number unresolved)]
  | partlyUnresolved name error => [("name", .quoted name), ("error", .plain error)]
  | checked problems => [("problems", .number problems)]

/-- The part of the program that reports the event, by which logs can be filtered. -/
def target : Event → String
  | checking .. => "letpoly"
  | statement .. | applicationFailed .. | resolved .. => "letpoly::infer::infer"
  | partlyUnresolved .. => "letpoly::infer::decorate"
  | inferred .. | preludeResolved .. | checked .. => "letpoly::check"

end Event

end LetTyping
