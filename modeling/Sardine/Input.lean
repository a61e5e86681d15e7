import Sardine.Input.Buffered
import Sardine.Input.Queue

/-! Where a program reads: nowhere, from given bytes, from a reader with or without a buffer, or
from a queue that may still be written to. -/
namespace Sardine

inductive Input
  | absent
  | bytes (rest : Bytes)
  | direct (source : Script)
  | buffered (reader : BufferedReader)
  | queue (q : Queue)
  deriving DecidableEq, Repr

namespace Input

def next : Input → Delivery × Input
  | absent => (.stopped .endOfData, absent)
  | bytes [] => (.stopped .endOfData, bytes [])
  | bytes (b :: rest) => (.byte b, bytes rest)
  | direct source =>
    match Script.next source with
    | (delivery, source) => (delivery, direct source)
  | buffered reader =>
    match reader.next with
    | (delivery, reader) => (delivery, buffered reader)
  | queue q =>
    match q.next with
    | (delivery, q) => (delivery, queue q)

/-- A bound on the bytes that can still be delivered without another write. -/
def size : Input → Nat
  | absent => 0
  | bytes rest => rest.length
  | direct source => source.size
  | buffered reader => reader.size
  | queue q => q.held.length

theorem size_next_lt {input after : Input} {b : UInt8} (h : input.next = (.byte b, after)) :
    after.size < input.size := by
  cases input with
  | absent => simp [next] at h
  | bytes rest =>
    cases rest with
    | nil => simp [next] at h
    | cons c rest =>
      simp only [next, Prod.mk.injEq] at h
      simp [← h.2, size]
  | direct source =>
    simp only [next, Prod.mk.injEq] at h
    simpa [← h.2, size] using Script.size_next_lt (Prod.ext h.1 rfl)
  | buffered reader =>
    simp only [next, Prod.mk.injEq] at h
    simpa [← h.2, size] using BufferedReader.size_next_lt (Prod.ext h.1 rfl)
  | queue q =>
    simp only [next, Prod.mk.injEq] at h
    simpa [← h.2, size] using Queue.size_next_lt (Prod.ext h.1 rfl)

end Input

end Sardine
