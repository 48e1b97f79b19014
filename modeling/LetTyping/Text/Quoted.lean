import LetTyping.Text.Combining

/-!
# Quoted words

Words of a program stand in double quotes in a log line.  Quotes and backslashes are escaped, and so
are the letters that would attach to the character before them, for which their code is written.

## Main definitions

* `quoted` — a word in quotes.
-/

namespace LetTyping

/-- A character inside quotes. -/
def quotedChar (c : Char) : List Char :=
  if c = '"' || c = '\\' then ['\\', c]
  else if isCombining c then
    ['\\', 'u', '\x7b'] ++ Nat.toDigits 16 c.toNat ++ ['\x7d']
  else [c]

/-- A word in quotes. -/
def quoted (word : String) : String :=
  String.ofList ('"' :: (word.toList.flatMap quotedChar ++ ['"']))

end LetTyping
