import Sardine.Text.Blank

/-! The lines of a source. A line ends at CR LF, at LF or at CR; blanks at its ends do not count,
and neither do empty lines, though they are numbered. -/
namespace Sardine.Source

def joinPairs : Bytes → Bytes
  | [] => []
  | [b] => [b]
  | a :: b :: rest =>
    if a = Bytes.carriageReturn ∧ b = Bytes.newline then Bytes.newline :: joinPairs rest
    else a :: joinPairs (b :: rest)

def returnsToNewlines (s : Bytes) : Bytes :=
  s.map fun b => if b = Bytes.carriageReturn then Bytes.newline else b

def lines (source : Bytes) : List Bytes :=
  Bytes.splitAt Bytes.newline (returnsToNewlines (joinPairs source))

theorem lines_ne_nil (source : Bytes) : lines source ≠ [] := Bytes.splitAt_ne_nil _ _

structure Line where
  number : Nat
  text : Bytes
  deriving DecidableEq, Repr

/-- The lines that say something, trimmed, with their numbers counted from one. -/
def numberedLines (source : Bytes) : List Line :=
  ((lines source).zipIdx 1).filterMap fun entry =>
    let text := Blank.trim entry.1
    if text.isEmpty then none else some ⟨entry.2, text⟩

end Sardine.Source
