import Sardine.Command
import Sardine.Settings.File

/-! The command line. Standard input is read only when the program waits for it, and what the
program has written by then is shown before. -/
namespace Sardine.Main

open Command

def textOf (bytes : Bytes) : String := (String.fromUTF8? ⟨bytes.toArray⟩).getD ""

def missing : Bytes := utf8 "no such file or directory"

/-- Why a file could not be read, and whether it had been opened by then. -/
def reasonOf : IO.Error → Bool × Bytes
  | .inappropriateType _ code _ =>
    if code = 20 then (false, utf8 "not a directory") else (true, utf8 "is a directory")
  | .invalidArgument .. => (false, utf8 "invalid argument")
  | .permissionDenied .. => (false, utf8 "permission denied")
  | _ => (false, missing)

def readFile (name : Bytes) : IO (Except FileFault Bytes) := do
  try
    let content ← IO.FS.readBinFile (textOf name)
    return .ok content.data.toList
  catch e =>
    let (whileReading, reason) := reasonOf e
    return .error { whileReading, name, reason }

def readFiles (names : List Bytes) : IO Files := do
  let found ← names.mapM fun name => do
    return (name, ← readFile name)
  return fun name => (found.lookup name).getD (.error ⟨false, name, missing⟩)

def put (stream : IO.FS.Stream) (bytes : Bytes) : IO Unit := do
  unless bytes.isEmpty do
    stream.write ⟨bytes.toArray⟩
    stream.flush

def putLine (stream : IO.FS.Stream) (bytes : Bytes) : IO Unit :=
  put stream (bytes ++ [Bytes.newline])

/-- Shows what has been written and traced so far, and forgets it. -/
def reveal (m : Machine) : IO Machine := do
  put (← IO.getStdout) (written m.channels.output.calls.toList)
  let messages := (m.trace.map Trace.messages).getD #[]
  for message in messages do
    putLine (← IO.getStderr) message
  return { m with
    channels := { m.channels with output := m.channels.output.forget }
    trace := m.trace.map fun trace => { trace with messages := #[] } }

/-- The steps that are made between two looks at the output. -/
def stride : Nat := 100000

/-- Drives a session to the end of its program, reading standard input as it is needed. -/
partial def drive (settings : Settings) (reply : Session.Reply) (s : Session) : IO Course := do
  let s := { s with machine := ← reveal s.machine }
  let next ← match reply with
    | .unfinished => pure (Session.run stride s)
    | .blocked =>
      let more ← (← IO.getStdin).read 4096
      let resumed := if more.isEmpty then (Session.close stride s).map (·.2)
        else (Session.write stride more.data.toList s).map (·.2)
      pure (resumed.getD (none, s))
    | _ => pure (none, s)
  match next with
  | (some reply, s) => drive settings reply s
  | (none, s) => return ofReply settings s.machine reply

def finish (report : Report) : IO UInt32 := do
  put (← IO.getStdout) report.output
  put (← IO.getStderr) report.complaint
  return report.status.toUInt32

/-- Ends with what an invocation has come to. -/
def finishCourse (course : Course) : IO UInt32 := do
  match course with
  | .ended report => finish report
  | .running calls => finish { calls }
  | .crashed text calls => finish { status := 2, calls, complaint := text ++ [Bytes.newline] }

def runCommand (args : List Bytes) : IO UInt32 := do
  match prepare FileSettings.decoder (← readFiles (named args)) args {} with
  | .done course => finishCourse course
  | .ready settings program =>
    let files ← readFiles settings.withFiles
    let (remarks, q) := Queue.feedFiles files settings.withFiles {}
    remarks.forM (putLine (← IO.getStderr))
    match launch settings program q {} with
    | .error course => finishCourse course
    | .ok m => finishCourse (← drive settings .unfinished { machine := m })

end Sardine.Main

def main (args : List String) : IO UInt32 := Sardine.Main.runCommand (args.map Sardine.utf8)
