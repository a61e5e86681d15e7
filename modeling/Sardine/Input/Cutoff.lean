import Sardine.Input.Script

/-! Readers that end at a Ctrl-D.
The reading in which the first Ctrl-D turns up brings only the bytes before it, and the end of the
data with them; after that nothing more is read. -/
namespace Sardine

/-- The byte that Ctrl-D sends. -/
def endOfTransmission : UInt8 := 4

structure Cutoff where
  source : Script
  isCut : Bool := false
  deriving DecidableEq, Repr

def Cutoff.read (n : Nat) (c : Cutoff) : Reading × Cutoff :=
  if c.isCut then (.data [] (some .endOfData), c)
  else match Script.read n c.source with
    | (.crash text, source) => (.crash text, { c with source })
    | (.data bytes stop, source) =>
      if bytes.contains endOfTransmission then
        (.data (bytes.takeWhile (· ≠ endOfTransmission)) (some .endOfData),
          { source, isCut := true })
      else (.data bytes stop, { c with source })

/-- A reader with or without such an end. -/
inductive Reader
  | script (source : Script)
  | cutoff (c : Cutoff)
  deriving DecidableEq, Repr

namespace Reader

def read (n : Nat) : Reader → Reading × Reader
  | script source =>
    match Script.read n source with
    | (reading, source) => (reading, script source)
  | cutoff c =>
    match c.read n with
    | (reading, c) => (reading, cutoff c)

def size : Reader → Nat
  | script source => source.size
  | cutoff c => c.source.size

theorem size_read_lt {n : Nat} (hn : 0 < n) {r after : Reader} {bytes : Bytes}
    (h : r.read n = (.data bytes none, after)) : after.size < r.size := by
  cases r with
  | script source =>
    simp only [read, Prod.mk.injEq] at h
    have hne : source ≠ [] := by rintro rfl; simp at h
    simpa [← h.2, size] using Script.size_read_lt hn hne
  | cutoff c =>
    simp only [read, Cutoff.read] at h
    split at h
    · simp at h
    · split at h
      · simp at h
      · rename_i data stop source heq
        split at h
        · simp at h
        · simp only [Prod.mk.injEq, Event.data.injEq] at h
          obtain ⟨⟨-, rfl⟩, rfl⟩ := h
          have hne : c.source ≠ [] := Script.ne_nil_of_read heq
          have := Script.size_read_lt hn hne
          rw [heq] at this
          simpa [size] using this

end Reader

end Sardine
