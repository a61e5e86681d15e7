import Sardine.Input.Cutoff

/-! A queue of bytes between a producer and the machine.
The producer appends and at last closes it; a reader that finds it empty and open has to wait. -/
namespace Sardine

structure Queue where
  held : Bytes := []
  closed : Bool := false
  deriving DecidableEq, Repr

namespace Queue

def length (q : Queue) : Nat := q.held.length

def write (q : Queue) (bytes : Bytes) : Except Error Queue :=
  if q.closed then .error ⟨.inputClosed, []⟩ else .ok { q with held := q.held ++ bytes }

def close (q : Queue) : Except Error Queue :=
  if q.closed then .error ⟨.inputClosed, []⟩ else .ok { q with closed := true }

def isWaiting (q : Queue) : Bool := q.held.isEmpty && !q.closed

def next (q : Queue) : Delivery × Queue :=
  match q.held with
  | b :: held => (.byte b, { q with held })
  | [] => if q.closed then (.stopped .endOfData, q) else (.pending, q)

theorem size_next_lt {q after : Queue} {b : UInt8} (h : q.next = (.byte b, after)) :
    after.held.length < q.held.length := by
  unfold next at h
  split at h
  · rename_i c held heq
    simp only [Prod.mk.injEq] at h
    simp [← h.2, heq]
  · split at h <;> simp at h

/-- What a reader asks for: one byte, or at most a number of bytes. -/
inductive Request
  | byte
  | bytes (n : Nat)
  deriving DecidableEq, Repr

/-- The reading for a request, unless it has to wait. A request for no bytes never waits. -/
def serve (q : Queue) : Request → Option (Reading × Queue)
  | .byte =>
    match q.next with
    | (.byte b, after) => some (.data [b] none, after)
    | (.stopped stop, after) => some (.data [] (some stop), after)
    | _ => none
  | .bytes n =>
    if n = 0 then some (.data [] none, q)
    else if q.isWaiting then none
    else if q.held.isEmpty then some (.data [] (some .endOfData), q)
    else some (.data (q.held.take n) none, { q with held := q.held.drop n })

def feedRoom : Nat := 512

def feedNote : Bytes := utf8 "input feed"

/-- Closes the queue at the end of a feed. Unless the reader has stopped at the end of its data,
its error is the result. -/
def endFeed (q : Queue) (stop : Stop) : Outcome Unit × Queue :=
  match stop, q.close with
  | .endOfData, .ok after => (.ok (), after)
  | .endOfData, .error e => (.failed e, q)
  | _, .ok after => (.failed (stop.toError.wrap feedNote), after)
  | _, .error _ => (.failed (stop.toError.wrap feedNote), q)

/-- Copies a reader into the queue up to its first stop and closes the queue. -/
def feed (q : Queue) (r : Reader) : Outcome Unit × Queue :=
  match _reading : r.read feedRoom with
  | (.crash text, _) => (.crashed text, q)
  | (.data bytes none, rest) =>
    if bytes.isEmpty then q.feed rest
    else match q.write bytes with
      | .error e => (.failed e, q)
      | .ok after => after.feed rest
  | (.data bytes (some stop), _) =>
    if bytes.isEmpty then q.endFeed stop
    else match q.write bytes with
      | .error e => (.failed e, q)
      | .ok after => after.endFeed stop
termination_by r.size
decreasing_by all_goals exact Reader.size_read_lt (by decide) _reading

end Queue

end Sardine
