import Sardine.Input.Queue

/-! A queue with one reader on it.
A request that has to wait stays pending until a write or the close of the queue serves it. -/
namespace Sardine

structure QueueSession where
  queue : Queue := {}
  pending : Option Queue.Request := none
  deriving DecidableEq, Repr

namespace QueueSession

inductive Reply
  | served (reading : Reading)
  | waiting
  | busy
  deriving DecidableEq, Repr

def request (s : QueueSession) (wanted : Queue.Request) : Reply × QueueSession :=
  match s.pending with
  | some _ => (.busy, s)
  | none =>
    match s.queue.serve wanted with
    | some (reading, queue) => (.served reading, { queue })
    | none => (.waiting, { s with pending := some wanted })

/-- Serves the pending request, if it can be served by now. -/
def wake (s : QueueSession) : Option Reading × QueueSession :=
  match s.pending with
  | none => (none, s)
  | some wanted =>
    match s.queue.serve wanted with
    | some (reading, queue) => (some reading, { queue })
    | none => (none, s)

def write (s : QueueSession) (bytes : Bytes) :
    Except Error Nat × Option Reading × QueueSession :=
  match s.queue.write bytes with
  | .ok queue => (.ok bytes.length, wake { s with queue })
  | .error e => (.error e, none, s)

def close (s : QueueSession) : Except Error Unit × Option Reading × QueueSession :=
  match s.queue.close with
  | .ok queue => (.ok (), wake { s with queue })
  | .error e => (.error e, none, s)

/-- Feeds the queue; while a request is pending this is refused. -/
def feed (s : QueueSession) (r : Reader) : Option (Outcome Unit) × QueueSession :=
  match s.pending with
  | some _ => (none, s)
  | none =>
    match s.queue.feed r with
    | (result, queue) => (some result, { s with queue })

end QueueSession

end Sardine
