import Sardine.Source.Lines
import Sardine.Input.Script

/-! From a source to a program.
Lines are read one after the other into a draft, which holds the code so far, what is known of each
label and the complaints so far. Labels may be used before they are defined, so those that are
missing are found at the end. -/
namespace Sardine

/-- A line of the source and the address of its instruction. -/
structure Site where
  line : Nat
  address : Nat
  deriving DecidableEq, Repr

/-- What is known of a label: where it is defined and where it is first used. -/
structure Mention where
  name : Bytes
  definition : Option Site := none
  firstUse : Option Site := none
  deriving DecidableEq, Repr

structure Draft where
  code : Array Instruction := #[]
  mentions : List Mention := []
  complaints : List Diagnostic := []
  deriving DecidableEq, Repr

namespace Draft

def mostComplaints : Nat := 10

def isFull (draft : Draft) : Bool := mostComplaints ≤ draft.complaints.length

def complain (d : Diagnostic) (draft : Draft) : Draft :=
  if draft.isFull then draft else { draft with complaints := draft.complaints ++ [d] }

def emit (ins : Instruction) (draft : Draft) : Draft :=
  { draft with code := draft.code.push ins }

def mention? (draft : Draft) (label : Bytes) : Option Mention :=
  draft.mentions.find? (·.name = label)

/-- The table with the entry of a label changed, or with a new entry for it at the end. -/
def updateMention (label : Bytes) (change : Mention → Mention) : List Mention → List Mention
  | [] => [change { name := label }]
  | entry :: rest =>
    if entry.name = label then change entry :: rest else entry :: updateMention label change rest

def useLabel (label : Bytes) (line : Nat) (draft : Draft) : Draft :=
  let site : Site := ⟨line, draft.code.size⟩
  { draft with
    mentions := updateMention label
      (fun entry => { entry with firstUse := entry.firstUse.or (some site) }) draft.mentions }

/-- Notes that the instruction about to be emitted defines a label, unless it is defined already. -/
def defineLabel (name label : Bytes) (line : Source.Line) (draft : Draft) : Draft :=
  match (draft.mention? label).bind Mention.definition with
  | some previous =>
    draft.complain ⟨name, line.number, line.text, .redefinition label previous.line⟩
  | none =>
    let site : Site := ⟨line.number, draft.code.size⟩
    { draft with
      mentions := updateMention label
        (fun entry => { entry with definition := some site }) draft.mentions }

/-- Reads one line into the draft. An invalid tank number still takes an instruction. -/
def readLine (name : Bytes) (draft : Draft) (line : Source.Line) : Draft :=
  match Phrase.ofLine? line.text with
  | some (.plain op) => draft.emit { op }
  | some (.swimTo label) =>
    (draft.useLabel label line.number).emit { op := .jumpIfPositive, label }
  | some (.arriveAt label) => (draft.defineLabel name label line).emit { op := .nop, label }
  | some (.ifNoneGoTo label) =>
    (draft.useLabel label line.number).emit { op := .jumpIfZero, label }
  | some (.lookInto digits) =>
    match Phrase.tank? digits with
    | some n => draft.emit { op := .setPointer, arg := n }
    | none =>
      (draft.complain ⟨name, line.number, line.text, .invalidTank digits⟩).emit
        { op := .setPointer }
  | none => draft.complain ⟨name, line.number, line.text, .unknownPhrase line.text⟩

def readLines (name : Bytes) (draft : Draft) (lines : List Source.Line) : Draft :=
  lines.foldl (fun d line => if d.isFull then d else d.readLine name line) draft

/-- The labels that are used and not defined, with their first use, by the line of that use. -/
def missing (mentions : List Mention) : List (Bytes × Site) :=
  (mentions.filterMap fun entry =>
    match entry.definition, entry.firstUse with
    | none, some site => some (entry.name, site)
    | _, _ => none).mergeSort fun a b => a.2.line ≤ b.2.line

/-- Complains about a missing label at its first use, showing the phrase that stands there. -/
def complainMissing (name : Bytes) (draft : Draft) (entry : Bytes × Site) : Draft :=
  let phrase := (draft.code[entry.2.address]?.map Instruction.phrase).getD []
  draft.complain ⟨name, entry.2.line, phrase, .missingLabel entry.1⟩

def labels (draft : Draft) : Labels :=
  draft.mentions.filterMap fun entry =>
    entry.definition.map fun site => (entry.name, (site.address : Int))

def finish (name : Bytes) (draft : Draft) : Except (List Diagnostic) Program :=
  let complaints := ((missing draft.mentions).foldl (complainMissing name) draft).complaints
  if complaints.isEmpty then .ok ⟨draft.code, draft.labels⟩ else .error complaints

end Draft

/-- Compiles a source; the name serves the diagnostics only. -/
def compile (name source : Bytes) : Except (List Diagnostic) Program :=
  (Draft.readLines name {} (Source.numberedLines source)).finish name

def compileScript (name : Bytes) (script : Script) : Outcome Program :=
  match script.readAll with
  | .ok source =>
    match compile name source with
    | .ok program => .ok program
    | .error diagnostics => .failed ⟨.rejected diagnostics, []⟩
  | .failed e => .failed (e.wrap name)
  | .crashed text => .crashed text

end Sardine
