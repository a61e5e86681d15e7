import Sardine.Input.Script

/-! A reader that hands out single bytes from a buffer and refills it, one reading at a time, when
it is empty. Data that comes with a stop is delivered first, and the stop once after it. -/
namespace Sardine

structure BufferedReader where
  source : Script
  ready : Bytes := []
  stop : Option Stop := none
  deriving DecidableEq, Repr

namespace Script

theorem length_add_size_read_le {n : Nat} {script rest : Script} {bytes : Bytes}
    {stop : Option Stop} (h : read n script = (.data bytes stop, rest)) :
    bytes.length + rest.size ≤ script.size := by
  match script with
  | [] =>
    simp only [read_nil, Prod.mk.injEq, Event.data.injEq] at h
    simp [← h.1.1, ← h.2]
  | .crash text :: tail => simp [read] at h
  | .data all last :: tail =>
    simp only [read] at h
    split at h
    all_goals
      simp only [Prod.mk.injEq, Event.data.injEq] at h
      simp only [← h.1.1, ← h.2, size, List.length_take, List.length_drop]
      omega

/-- The first of at most `tries` readings that brings something. -/
def refill (room : Nat) : Nat → Script → Reading × Script
  | 0, script => (.data [] (some .stalled), script)
  | tries + 1, script =>
    match read room script with
    | (.data [] none, rest) => refill room tries rest
    | other => other

theorem length_add_size_refill_le {room tries : Nat} {script rest : Script} {bytes : Bytes}
    {stop : Option Stop} (h : refill room tries script = (.data bytes stop, rest)) :
    bytes.length + rest.size ≤ script.size := by
  induction tries generalizing script with
  | zero =>
    simp only [refill, Prod.mk.injEq, Event.data.injEq] at h
    simp [← h.1.1, ← h.2]
  | succ tries ih =>
    unfold refill at h
    split at h
    · rename_i tail heq
      have := size_read_le room script
      rw [heq] at this
      have := ih h
      simp only at *
      omega
    · exact length_add_size_read_le h

end Script

namespace BufferedReader

def capacity : Nat := 4096

def patience : Nat := 100

def size (r : BufferedReader) : Nat := r.ready.length + r.source.size

def next (r : BufferedReader) : Delivery × BufferedReader :=
  match r.ready, r.stop with
  | b :: ready, _ => (.byte b, { r with ready })
  | [], some stop => (.stopped stop, { r with stop := none })
  | [], none =>
    match Script.refill capacity patience r.source with
    | (.crash text, source) => (.crashed text, { source })
    | (.data (b :: ready) stop, source) => (.byte b, { source, ready, stop })
    | (.data [] (some stop), source) => (.stopped stop, { source })
    | (.data [] none, source) => (.stopped .stalled, { source })

theorem size_next_lt {r after : BufferedReader} {b : UInt8} (h : r.next = (.byte b, after)) :
    after.size < r.size := by
  unfold next at h
  split at h
  · rename_i c ready heq
    simp only [Prod.mk.injEq] at h
    simp [← h.2, size, heq]
  · simp at h
  · rename_i hr hs
    split at h
    · simp at h
    · rename_i c ready stop source heq
      simp only [Prod.mk.injEq] at h
      have := Script.length_add_size_refill_le heq
      simp only [List.length_cons] at this
      simp [← h.2, size, hr]
      omega
    · simp at h
    · simp at h

end BufferedReader

end Sardine
