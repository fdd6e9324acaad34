import Bistro.CommandLine

/-!
# The command

Reads the arguments and the source file, asks for answers as the program wants them, and writes what
the command line makes of them.
-/

namespace Bistro

open CommandLine

/-- Reads a source file. -/
def readSource (path : String) : IO (Except ReadFault String) := do
  match ← (IO.FS.readBinFile path).toBaseIO with
  | .ok bytes => return decode bytes
  | .error (.noFileOrDirectory ..) => return .error .missing
  | .error e => return .error (.other (toString e))

/-- Writes a transcript and gives its exit code. -/
def writeOut (t : Transcript) : IO UInt32 := do
  (← IO.getStderr).putStr t.stderr
  (← IO.getStdout).putStr t.stdout
  return t.exit.toUInt32

/-- Goes through a session with the answers so far.  While the program asks for more, so is the
user; at the end of the input the rest of the prompts is shown and the session is reported. -/
partial def interact (o : Options) (source : String) (given : List String) : IO UInt32 := do
  match converse o source given with
  | .error failure => writeOut (refusal 1 failure.render)
  | .ok s =>
    match (prompts s).drop given.length with
    | [] => writeOut (report o s)
    | next :: further =>
      let stderr ← IO.getStderr
      stderr.putStr next
      stderr.flush
      match answers (← (← IO.getStdin).getLine) with
      | answer :: _ => interact o source (given ++ [answer])
      | [] =>
        stderr.putStr (String.join further)
        writeOut (report o s)

end Bistro

open Bistro CommandLine

/-- The command. -/
def main (arguments : List String) : IO UInt32 := do
  match ofArguments arguments with
  | .error e => writeOut ⟨2, "", line e.render⟩
  | .ok (path, options) =>
    match ← readSource path with
    | .error fault => writeOut (unreadable path fault)
    | .ok source => interact options source []
