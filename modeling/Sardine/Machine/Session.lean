import Sardine.Machine.Run

/-! A machine together with those who drive it: one calls its steps and runs, the other fills its
input queue. A call that has to wait is suspended; while it is, no other call is possible, and it
goes on when the queue is written to, closed or fed. -/
namespace Sardine

inductive Activity
  | step
  | run
  deriving DecidableEq, Repr

structure Session where
  machine : Machine
  suspended : Option (Activity × Wait) := none

namespace Session

inductive Reply
  | returned (error : Option Error)
  | blocked
  | crashed (text : Bytes)
  | unfinished
  deriving DecidableEq, Repr

def ofStep (activity : Activity) : Machine.Step → Reply × Session
  | .returned error machine => (.returned error, { machine })
  | .waiting w machine => (.blocked, { machine, suspended := some (activity, w) })
  | .crashed text machine => (.crashed text, { machine })

def ofRun : Machine.Run → Reply × Session
  | .settled s => ofStep .run s
  | .unfinished machine => (.unfinished, { machine })

def isBusy (s : Session) : Bool := s.suspended.isSome

/-- One step; there is no answer while a call is suspended. -/
def step (s : Session) : Option Reply × Session :=
  match s.suspended with
  | some _ => (none, s)
  | none =>
    match ofStep .step s.machine.step with
    | (reply, s) => (some reply, s)

def run (fuel : Nat) (s : Session) : Option Reply × Session :=
  match s.suspended with
  | some _ => (none, s)
  | none =>
    match ofRun (Machine.run fuel s.machine) with
    | (reply, s) => (some reply, s)

/-- Steps until the program has ended or a step has to wait, at most `n` of them: the number of
steps that are through and how the last one came back. -/
def steps (s : Session) : Nat → Nat → Option Error → (Nat × Reply) × Session
  | 0, made, last => ((made, .returned last), s)
  | n + 1, made, last =>
    if s.machine.status = .ended then ((made, .returned last), s)
    else match ofStep .step s.machine.step with
      | (.returned error, s) => steps s n (made + 1) error
      | (.crashed text, s) => ((made + 1, .crashed text), s)
      | (reply, s) => ((made, reply), s)

def resume (fuel : Nat) (s : Session) : Option Reply × Session :=
  match s.suspended with
  | none => (none, s)
  | some (.step, w) =>
    match ofStep .step (Machine.resume w s.machine) with
    | (reply, s) => (some reply, s)
  | some (.run, w) =>
    match ofRun (Machine.resumeRun fuel w s.machine) with
    | (reply, s) => (some reply, s)

def queue? (s : Session) : Option Queue :=
  match s.machine.channels.input with
  | .queue q => some q
  | _ => none

def withQueue (q : Queue) (s : Session) : Session :=
  { s with machine := { s.machine with channels := { s.machine.channels with input := .queue q } } }

/-- A write to the queue; a byte that comes lets a suspended call go on. There is no answer if the
machine does not read from a queue. -/
def write (fuel : Nat) (bytes : Bytes) (s : Session) :
    Option (Except Error Nat × Option Reply × Session) :=
  s.queue?.map fun q =>
    match q.write bytes with
    | .error e => (.error e, none, s)
    | .ok after =>
      if bytes.isEmpty then (.ok 0, none, s)
      else (.ok bytes.length, resume fuel (s.withQueue after))

def close (fuel : Nat) (s : Session) : Option (Except Error Unit × Option Reply × Session) :=
  s.queue?.map fun q =>
    match q.close with
    | .error e => (.error e, none, s)
    | .ok after => (.ok (), resume fuel (s.withQueue after))

def feed (fuel : Nat) (r : Reader) (s : Session) :
    Option (Outcome Unit × Option Reply × Session) :=
  s.queue?.map fun q =>
    match q.feed r with
    | (result, after) => (result, resume fuel (s.withQueue after))

end Session

end Sardine
