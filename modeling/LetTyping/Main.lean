import LetTyping.Command

/-!
# The program

The outer layer: it reads the program to check and writes what the command shows.
-/

namespace LetTyping

/-- The bytes of a file, or of the standard input. -/
def readBytes (file : String) : IO (Except ReadFailure ByteArray) := do
  if isStandardInput file then
    return .ok (← (← IO.getStdin).readBinToEnd)
  try
    return .ok (← IO.FS.readBinFile file)
  catch failure =>
    match failure with
    | .noFileOrDirectory .. => return .error .missing
    | .permissionDenied .. => return .error .denied
    | .inappropriateType _ 21 _ => return .error .directory
    | .inappropriateType .. => return .error .notDirectory
    | failure => return .error (.other failure.toString)

/-- The bytes that a request needs. -/
def Request.bytes : Request → IO (Except ReadFailure ByteArray)
  | .check file _ => readBytes file
  | _ => return .ok .empty

/-- A report on several lines. -/
def Report.lines (r : Report) (place : String) : List String :=
  ["Error: " ++ r.headline, "  at " ++ place] ++ r.help.map ("  help: " ++ ·) ++
    r.note.map ("  note: " ++ ·)

end LetTyping

open LetTyping in
/-- Checks the program that the arguments name. -/
def main (args : List String) : IO UInt32 := do
  let request := Request.ofArgs args
  let output := run request (← request.bytes) (← IO.getEnv "RUST_LOG")
  let stdout ← IO.getStdout
  let stderr ← IO.getStderr
  for line in output.logs ++ output.plain do
    stderr.putStrLn line
  stdout.putStr output.stdout
  for (report, place) in output.reports do
    for line in report.lines place do
      stderr.putStrLn line
  return UInt32.ofNat output.code
