import Sardine.Machine.Basic
import Sardine.Output.Guarded

/-! The dump of a machine: its registers and the cells that are not zero. -/
namespace Sardine.Machine

def registersText (m : Machine) : Bytes :=
  utf8 "state: " ++ utf8 m.status.text ++ utf8 "\npc: " ++ Decimal.ofInt m.pc ++
    utf8 "\nptr: " ++ Decimal.ofInt m.ptr ++ utf8 "\ninstructions: " ++ Decimal.digits m.count ++
    utf8 "\n"

def cellText (address : Nat) (v : Cell) : Bytes :=
  Decimal.address address ++ utf8 "\t" ++ Cell.text v ++ utf8 "\n"

def dumpPieces (m : Machine) : List Bytes :=
  m.registersText :: m.mem.toList.zipIdx.filterMap fun entry =>
    if entry.1 = 0 then none else some (cellText entry.2 entry.1)

def dump (m : Machine) : Bytes := m.dumpPieces.flatten

def writeDump (m : Machine) (writer : Writer) : Outcome Unit × Guarded :=
  Guarded.writeAll m.dumpPieces writer.guard

end Sardine.Machine
