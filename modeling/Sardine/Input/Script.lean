import Sardine.Error

/-! Scripted readers: what a source of bytes does, call by call.
A reading never joins two events. After the last event there is only the end of the data. -/
namespace Sardine

inductive Stop
  | endOfData
  | error (text : Bytes)
  | stalled
  deriving DecidableEq, Repr

def Stop.toError : Stop → Error
  | endOfData => ⟨.endOfInput, []⟩
  | error text => ⟨.reader text, []⟩
  | stalled => ⟨.noProgress, []⟩

/-- Bytes that arrive, with the stop that comes along with the last of them, or a crash. -/
inductive Event
  | data (bytes : Bytes) (stop : Option Stop)
  | crash (text : Bytes)
  deriving DecidableEq, Repr

abbrev Reading := Event

/-- What a reader that hands out single bytes answers; `pending` if it has nothing yet. -/
inductive Delivery
  | byte (value : UInt8)
  | stopped (stop : Stop)
  | crashed (text : Bytes)
  | pending
  deriving DecidableEq, Repr

abbrev Script := List Event

namespace Script

/-- A bound on the readings until the script is used up. -/
def size : Script → Nat
  | [] => 0
  | .data bytes _ :: rest => bytes.length + 1 + size rest
  | .crash _ :: rest => 1 + size rest

/-- A reading of at most `n` bytes. The last bytes of an event bring its stop with them. -/
def read (n : Nat) : Script → Reading × Script
  | [] => (.data [] (some .endOfData), [])
  | .crash text :: rest => (.crash text, rest)
  | .data bytes stop :: rest =>
    if n < bytes.length then (.data (bytes.take n) none, .data (bytes.drop n) stop :: rest)
    else (.data bytes stop, rest)

@[simp] theorem read_nil (n : Nat) : read n [] = (.data [] (some .endOfData), []) := rfl

theorem size_read_le (n : Nat) (script : Script) : (read n script).2.size ≤ script.size := by
  match script with
  | [] => simp
  | .crash text :: rest => simp [read, size]
  | .data bytes stop :: rest => simp only [read]; split <;> simp [size]

theorem size_read_lt {n : Nat} (hn : 0 < n) {script : Script} (h : script ≠ []) :
    (read n script).2.size < script.size := by
  match script with
  | .crash text :: rest => simp [read, size]
  | .data bytes stop :: rest =>
    simp only [read]
    split <;> simp [size]
    omega

theorem ne_nil_of_read {n : Nat} {script rest : Script} {bytes : Bytes}
    (h : read n script = (.data bytes none, rest)) : script ≠ [] := by
  rintro rfl
  simp at h

def readAll : Script → Outcome Bytes
  | [] => .ok []
  | .crash text :: _ => .crashed text
  | .data bytes none :: rest =>
    match readAll rest with
    | .ok more => .ok (bytes ++ more)
    | other => other
  | .data bytes (some .endOfData) :: _ => .ok bytes
  | .data _ (some stop) :: _ => .failed stop.toError

/-- The next byte, if the reader hands out bytes one by one: events that bring nothing are passed
over, and a stop that comes with the last byte is kept for the following call. -/
def next : Script → Delivery × Script
  | [] => (.stopped .endOfData, [])
  | .crash text :: rest => (.crashed text, rest)
  | .data [] none :: rest => next rest
  | .data [] (some stop) :: rest => (.stopped stop, rest)
  | .data (b :: bytes) stop :: rest => (.byte b, .data bytes stop :: rest)

theorem size_next_lt {script rest : Script} {b : UInt8} (h : next script = (.byte b, rest)) :
    rest.size < script.size := by
  fun_induction next script with
  | case1 => simp at h
  | case2 => simp at h
  | case3 tail ih => have := ih h; simp [size]; omega
  | case4 => simp at h
  | case5 c bytes stop tail =>
    simp only [Prod.mk.injEq, Delivery.byte.injEq] at h
    obtain ⟨-, rfl⟩ := h
    simp [size]

end Script

end Sardine
