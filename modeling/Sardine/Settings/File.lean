import Sardine.Toml.Document
import Sardine.Settings.Merge

/-! The settings in a file: the keys of its top table that name a setting, in upper or lower case.
Other keys are passed over; a value of the wrong kind spoils the file. -/
namespace Sardine

namespace FileSettings

/-- A key without the difference of case; the long s counts as an s. -/
def foldCase : Bytes → Bytes
  | 0xC5 :: 0xBF :: rest => 115 :: foldCase rest
  | b :: rest => Literal.lower b :: foldCase rest
  | [] => []

def boolean? : Toml.Node → Option Bool
  | .leaf (.boolean b) => some b
  | _ => none

def integer? : Toml.Node → Option Int
  | .leaf (.integer n) => some n
  | _ => none

def string? : Toml.Value → Option Bytes
  | .string s => some s
  | _ => none

def strings? : Toml.Node → Option (List Bytes)
  | .array items => items.mapM string?
  | _ => none

def take (file : FileSettings) (entry : Bytes × Toml.Node) : Option FileSettings :=
  let name := foldCase entry.1
  if name = utf8 "raw" then (boolean? entry.2).map fun v => { file with raw := some v }
  else if name = utf8 "debug" then (boolean? entry.2).map fun v => { file with debug := some v }
  else if name = utf8 "dump" then (boolean? entry.2).map fun v => { file with dump := some v }
  else if name = utf8 "disasm" then (boolean? entry.2).map fun v => { file with disasm := some v }
  else if name = utf8 "verbosity" then
    (integer? entry.2).map fun v => { file with verbosity := some v }
  else if name = utf8 "with" then (strings? entry.2).map fun v => { file with withFiles := some v }
  else some file

/-- The entries with those last whose key is written as the setting is. -/
def exactLast (entries : Toml.Entries) : Toml.Entries :=
  let isExact (entry : Bytes × Toml.Node) : Bool := foldCase entry.1 = entry.1
  entries.filter (! isExact ·) ++ entries.filter isExact

def decode? (text : Bytes) : Option FileSettings :=
  (Toml.Document.ofFile text).bind fun doc => (exactLast doc.root).foldlM take {}

def decoder : Decoder := fun text s =>
  match decode? text with
  | none => .error (utf8 "toml: invalid settings", s)
  | some file => .ok (file.override s)

end FileSettings

end Sardine
