import Sardine.Text.Bytes

/-! Files as an invocation finds them: by name, each with its content or the reason why there is
none. -/
namespace Sardine

/-- A failure to open a file, or to read it once it is open. -/
structure FileFault where
  whileReading : Bool
  name : Bytes
  reason : Bytes
  deriving DecidableEq, Repr

def FileFault.message (fault : FileFault) : Bytes :=
  utf8 (if fault.whileReading then "read " else "open ") ++ fault.name ++ utf8 ": " ++ fault.reason

abbrev Files := Bytes → Except FileFault Bytes

end Sardine
