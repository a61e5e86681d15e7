import Sardine.Output.Guarded

/-! The listing of a program: one line per instruction with its address.
A `NOP` that defines a label shows it. The pieces are the single writes that make up the text. -/
namespace Sardine.Program

/-- Whether the table gives the label of a `NOP` the address at which it stands. -/
def definesLabel (program : Program) (pc : Nat) (ins : Instruction) : Bool :=
  ins.op = .nop && !ins.label.isEmpty && program.labels.address? ins.label = some (pc : Int)

def instructionPieces (program : Program) (pc : Nat) (ins : Instruction) : List Bytes :=
  ins.text :: if program.definesLabel pc ins then [utf8 "\t:", ins.label] else []

def linePieces (program : Program) (pc : Nat) (ins : Instruction) : List Bytes :=
  (Decimal.address pc ++ utf8 "\t") :: (program.instructionPieces pc ins ++ [[Bytes.newline]])

def listingPieces (program : Program) : List Bytes :=
  program.code.toList.zipIdx.flatMap fun entry => program.linePieces entry.2 entry.1

def listing (program : Program) : Bytes := program.listingPieces.flatten

/-- Writes one instruction; there is none outside the program. -/
def writeInstruction (program : Program) (pc : Int) (writer : Writer) : Outcome Unit × Guarded :=
  match pc with
  | .ofNat n =>
    match program.code[n]? with
    | some ins => Guarded.writeAll (program.instructionPieces n ins) writer.guard
    | none => (.crashed (indexCrash pc program.size), writer.guard)
  | .negSucc _ => (.crashed (indexCrash pc program.size), writer.guard)

/-- Writes the lines for some addresses. What comes of the single writes is left to the guard, which
is asked at the end of each line whether it has failed. -/
def writeLines (program : Program) : List Nat → Guarded → Outcome Unit × Guarded
  | [], g => (.ok (), g)
  | pc :: rest, g =>
    Guarded.andThen (Guarded.writeAll [Decimal.address pc ++ utf8 "\t"] g) fun g =>
      Guarded.andThen (program.writeInstruction pc (.guarded g)) fun g =>
        Guarded.andThen (Guarded.writeAll [[Bytes.newline]] g) fun g =>
          match g.failure with
          | some e => (.failed e, g)
          | none => writeLines program rest g

/-- Writes the listing, up to the line with the first write that fails. -/
def writeListing (program : Program) (writer : Writer) : Outcome Unit × Guarded :=
  program.writeLines (List.range program.size) writer.guard

end Sardine.Program
