import StateSpace.Console.Programs

/-!
# Command line

The first argument names the program, the others are its own. Texts have one character per byte, whatever encoding the
bytes are in, so that what is read is written back as it came.
-/

open StateSpace StateSpace.Console

partial def readBytes (input : IO.FS.Stream) (read : ByteArray) : IO ByteArray := do
  let more ← input.read 4096
  if more.isEmpty then return read
  readBytes input (read ++ more)

def textOf (bytes : ByteArray) : String := Bytes.toText bytes.toList

def emit (output : IO.FS.Stream) (text : String) : IO Unit := do
  output.write ⟨(Bytes.ofString text).toArray⟩
  output.flush

def write (t : Transcript) : IO UInt32 := do
  emit (← IO.getStdout) t.out
  emit (← IO.getStderr) t.err
  return t.exitCode.toUInt32

/-- Evaluates, and tells the milliseconds that this takes. -/
def timed {α : Type} (f : Unit → α) : IO (α × String) := do
  let start ← IO.monoMsNow
  let x ← IO.lazyPure f
  let stop ← IO.monoMsNow
  return (x, toString (stop - start))

def runProgram : List String → IO UInt32
  | "clock_actors" :: args => do
    match ClockProgram.request args with
    | .error e => throw (IO.userError e.message)
    | .ok r =>
      let (found, elapsed) ← timed fun _ => ClockProgram.search r
      write (ClockProgram.transcript r elapsed found)
  | "two_phase_commit" :: args => do
    match CommitProgram.request args with
    | .error e => write (.failed e.message)
    | .ok r =>
      let (found, elapsed) ← timed fun _ => CommitProgram.search r
      let lines ← match r with
        | .explore _ => do pure (linesOf (textOf (← readBytes (← IO.getStdin) .empty)))
        | _ => pure []
      write (CommitProgram.transcript r elapsed lines found)
  | _ => do
    IO.eprintln "usage: clock_actors [limit] [lossy] | two_phase_commit [check | explore] ..."
    return 2

def main (args : List String) : IO UInt32 := runProgram (args.map fun arg => textOf arg.toUTF8)
