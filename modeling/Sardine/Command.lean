import Sardine.Settings.Merge
import Sardine.Source.Compile
import Sardine.Input.Feed
import Sardine.Machine.Session
import Sardine.Machine.Dump
import Sardine.Listing

/-! The command: compile one source, then list it or run it on the given input.
Standard output is a device, which may fail; it carries what the program writes, its listing or its
dump. Standard error carries the complaints of the command itself. -/
namespace Sardine.Command

/-- What an invocation leaves behind: its exit status, the calls it has made on standard output and
what it says on standard error. -/
structure Report where
  status : Nat := 0
  calls : List Call := []
  complaint : Bytes := []
  deriving DecidableEq, Repr

def written (calls : List Call) : Bytes :=
  calls.flatMap fun call =>
    match call with
    | .write true bytes => bytes
    | _ => []

def Report.output (report : Report) : Bytes := written report.calls

/-- What has come of an invocation: it has ended, or its program is still running, or it has
crashed. -/
inductive Course
  | ended (report : Report)
  | running (calls : List Call)
  | crashed (text : Bytes) (calls : List Call)
  deriving DecidableEq, Repr

namespace Course

def report? : Course → Option Report
  | ended report => some report
  | _ => none

/-- The exit status, once there is one. A crash has its own. -/
def status? : Course → Option Nat
  | ended report => some report.status
  | running _ => none
  | crashed _ _ => some 2

def calls : Course → List Call
  | ended report => report.calls
  | running calls => calls
  | crashed _ calls => calls

end Course

def usage : Bytes := utf8
  "Usage: iwashi [options] file.iwashi
  -config filename
    \tload settings from TOML file filename
  -debug
    \tenable debug diagnostics
  -disasm
    \tprint a disassembly of the program and exit
  -dump
    \tdump VM state and memory upon exit
  -noraw
    \tdisable raw terminal IO
  -v int
    \tlog verbosity: 1 for info, 2 for debug and execution trace
  -with filename
    \tAdd filename to the input list (can be specified multiple times)
"

/-- The report on flags that cannot be read. Asking for help is no mistake. -/
def flagReport : FlagFault → Report
  | .help => { complaint := usage }
  | fault => { status := 2, complaint := fault.message ++ [Bytes.newline] ++ usage }

def whereabouts (m : Machine) : Bytes :=
  utf8 "PC: " ++ Decimal.ofInt m.pc ++ utf8 ", Ptr: " ++ Decimal.ofInt m.ptr ++
    utf8 ", Instructions: " ++ Decimal.digits m.count ++ [Bytes.newline] ++
    match m.instruction? with
    | some ins => (m.program.instructionPieces m.pc.toNat ins).flatten ++ [Bytes.newline]
    | none => []

/-- What is said about an error: one line, or with debugging every note on its own line and the
state of the machine. -/
def complaint (debug : Bool) (machine : Option Machine) (e : Error) : Bytes :=
  if debug then
    Bytes.newline :: e.report ++ Bytes.newline :: (machine.map whereabouts).getD []
  else Bytes.newline :: e.message ++ [Bytes.newline]

def failure (settings : Settings) (machine : Option Machine) (e : Error) : Report :=
  { status := 1, complaint := complaint settings.debug machine e }

def compileFile (name : Bytes) : Except FileFault Bytes → Except Error Program
  | .error fault => .error ⟨.file fault, if fault.whileReading then [name] else []⟩
  | .ok source =>
    match compile name source with
    | .ok program => .ok program
    | .error diagnostics => .error ⟨.rejected diagnostics, []⟩

def traceVerbosity : Int := 2

def machine (settings : Settings) (program : Program) (q : Queue) (stdout : Device) :
    Outcome Machine :=
  Machine.create (some program)
    [.input (.queue q), .output (.buffered { device := stdout }),
      .trace { detailed := traceVerbosity ≤ settings.verbosity }]

/-- The end of an invocation whose last work was on an output. -/
def conclude (settings : Settings) (machine : Option Machine) : Outcome Unit × Output → Course
  | (.ok (), output) => .ended { calls := output.calls.toList }
  | (.failed e, output) =>
    .ended { failure settings machine e with calls := output.calls.toList }
  | (.crashed text, output) => .crashed text output.calls.toList

def list (program : Program) (stdout : Device) : Outcome Unit × Output :=
  match program.writeListing (.bare (.buffered { device := stdout })) with
  | (.ok (), g) => g.target.flush
  | (result, g) => (result, g.target)

/-- Writes the dump, if it is wanted. It goes past the buffer, which is empty by then. -/
def dump (settings : Settings) (m : Machine) : Outcome Unit × Output :=
  if settings.dump then
    match m.writeDump (.bare m.channels.output.unbuffered) with
    | (result, g) => (result, g.target)
  else (.ok (), m.channels.output)

/-- What comes after a run that has ended, with an error or without. -/
def afterRun (settings : Settings) (error : Option Error) (m : Machine) : Course :=
  match error with
  | none => conclude settings (some m) (dump settings m)
  | some e => conclude settings (some m) (.failed e, m.channels.output)

/-- What has come of a run, by the reply to it. It does not wait if its queue has been closed. -/
def ofReply (settings : Settings) (m : Machine) : Session.Reply → Course
  | .returned error => afterRun settings error m
  | .crashed text => .crashed text m.channels.output.calls.toList
  | .blocked => .running m.channels.output.calls.toList
  | .unfinished => .running m.channels.output.calls.toList

/-- The machine that is to run, or what an invocation without one has come to. -/
def launch (settings : Settings) (program : Program) (q : Queue) (stdout : Device) :
    Except Course Machine :=
  match machine settings program q stdout with
  | .failed e => .error (.ended (failure settings none e))
  | .crashed text => .error (.crashed text [])
  | .ok m => .ok m

/-- Runs a program on a queue that has been filled and closed, for a number of steps at most. -/
def runProgram (fuel : Nat) (settings : Settings) (program : Program) (q : Queue)
    (stdout : Device) : Course :=
  match launch settings program q stdout with
  | .error course => course
  | .ok m =>
    match Session.ofRun (Machine.run fuel m) with
    | (reply, s) => ofReply settings s.machine reply

def operandReport (settings : Settings) : Report :=
  let report := failure settings none ⟨.oneSourceExpected, []⟩
  { report with complaint := usage ++ report.complaint }

/-- What an invocation has come to without running a program: it is over, or there is one to run. -/
inductive Stage
  | done (course : Course)
  | ready (settings : Settings) (program : Program)

/-- The files that are looked up before a program runs. -/
def named (args : List Bytes) : List Bytes :=
  match Flags.parse {} args with
  | .error _ => []
  | .ok (flags, operands) => (Settings.fileName? flags).toList ++ operands

def prepare (decode : Decoder) (files : Files) (args : List Bytes) (stdout : Device) : Stage :=
  match Flags.parse {} args with
  | .error fault => .done (.ended (flagReport fault))
  | .ok (flags, operands) =>
    match Settings.load decode files flags with
    | .error e => .done (.ended (failure e.settings none e.error))
    | .ok settings =>
      match operands with
      | [name] =>
        match compileFile name (files name) with
        | .error e => .done (.ended (failure settings none e))
        | .ok program =>
          if settings.disasm then .done (conclude settings none (list program stdout))
          else .ready settings program
      | _ => .done (.ended (operandReport settings))

/-- An invocation with standard input from a pipe, whose program makes a number of steps at most. -/
def course (fuel : Nat) (decode : Decoder) (files : Files) (args : List Bytes) (stdin : Bytes)
    (stdout : Device) : Course :=
  match prepare decode files args stdout with
  | .done course => course
  | .ready settings program =>
    match Queue.feedAll files settings.withFiles (.script [.data stdin none]) {} with
    | (_, q) => runProgram fuel settings program q stdout

/-- A whole invocation with a standard output that does not fail. There is no report if the program
does not end within the given number of steps. -/
def invoke (fuel : Nat) (decode : Decoder) (files : Files) (args : List Bytes) (stdin : Bytes) :
    Option Report :=
  (course fuel decode files args stdin {}).report?

end Sardine.Command
