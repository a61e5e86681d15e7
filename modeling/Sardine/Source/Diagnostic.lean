import Sardine.Phrase
import Sardine.Text.Quoted

/-! What can be wrong with a source, and how it is said. -/
namespace Sardine

inductive Complaint
  | unknownPhrase (text : Bytes)
  | invalidTank (digits : Bytes)
  | redefinition (label : Bytes) (previousLine : Nat)
  | missingLabel (label : Bytes)
  deriving DecidableEq, Repr

def Complaint.message : Complaint → Bytes
  | unknownPhrase text => utf8 "unknown phrase " ++ Quoted.quote text
  | invalidTank digits =>
    utf8 "invalid address " ++ Quoted.quote digits ++ utf8 ", expected an integer in [0, " ++
      Decimal.digits Phrase.lastTank ++ utf8 "]"
  | redefinition label previousLine =>
    utf8 "label redefinition: " ++ label ++ utf8 ", previous definition at line " ++
      Decimal.digits previousLine
  | missingLabel label => utf8 "missing label definition for " ++ label

/-- A complaint about one line of a named source. Lines are counted from one. -/
structure Diagnostic where
  name : Bytes
  line : Nat
  text : Bytes
  complaint : Complaint
  deriving DecidableEq, Repr

def Diagnostic.message (d : Diagnostic) : Bytes :=
  d.name ++ utf8 ":" ++ Decimal.digits d.line ++ utf8 ": " ++ d.complaint.message

end Sardine
