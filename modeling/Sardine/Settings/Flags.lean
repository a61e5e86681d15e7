import Sardine.Text.Literal
import Sardine.Text.Quoted

/-! The flags of the command line.
Flags come first and begin with one or two dashes. A switch is on unless it is given a value with
an equals sign; every other flag takes a value, after an equals sign or as the next argument. -/
namespace Sardine

inductive Flag
  | config | noRaw | debug | dump | disasm | verbosity | withFile
  deriving DecidableEq, Repr

namespace Flag

def all : List Flag := [config, debug, disasm, dump, noRaw, verbosity, withFile]

def name : Flag → String
  | config => "config"
  | noRaw => "noraw"
  | debug => "debug"
  | dump => "dump"
  | disasm => "disasm"
  | verbosity => "v"
  | withFile => "with"

def ofName? (name : Bytes) : Option Flag := all.find? fun flag => utf8 flag.name = name

end Flag

/-- What the flags on a command line say; a flag that is not given says nothing. -/
structure Flags where
  config : Option Bytes := none
  noRaw : Option Bool := none
  debug : Option Bool := none
  dump : Option Bool := none
  disasm : Option Bool := none
  verbosity : Option Int := none
  withFiles : List Bytes := []
  deriving DecidableEq, Repr

/-- What can be wrong with the flags; asking for help counts as well. -/
inductive FlagFault
  | badSyntax (argument : Bytes)
  | notDefined (name : Bytes)
  | needsArgument (name : Bytes)
  | invalidSwitch (name value : Bytes)
  | invalidNumber (name value : Bytes) (failure : Literal.Failure)
  | help
  deriving DecidableEq, Repr

def FlagFault.message : FlagFault → Bytes
  | badSyntax argument => utf8 "bad flag syntax: " ++ argument
  | notDefined name => utf8 "flag provided but not defined: -" ++ name
  | needsArgument name => utf8 "flag needs an argument: -" ++ name
  | invalidSwitch name value =>
    utf8 "invalid boolean value " ++ Quoted.quote value ++ utf8 " for -" ++ name ++
      utf8 ": parse error"
  | invalidNumber name value failure =>
    utf8 "invalid value " ++ Quoted.quote value ++ utf8 " for flag -" ++ name ++ utf8 ": " ++
      utf8 (match failure with
        | .malformed => "parse error"
        | .outOfRange => "value out of range")
  | help => utf8 "flag: help requested"

namespace Flags

def dash : UInt8 := 45

def equals : UInt8 := 61

def switch? (value : Bytes) : Option Bool :=
  if ["1", "t", "T", "TRUE", "true", "True"].any (utf8 · = value) then some true
  else if ["0", "f", "F", "FALSE", "false", "False"].any (utf8 · = value) then some false
  else none

/-- Sets a switch; the flags that take a value are not switches. -/
def setSwitch (flags : Flags) (flag : Flag) (on : Bool) : Option Flags :=
  match flag with
  | .noRaw => some { flags with noRaw := some on }
  | .debug => some { flags with debug := some on }
  | .dump => some { flags with dump := some on }
  | .disasm => some { flags with disasm := some on }
  | _ => none

def isSwitch : Flag → Bool
  | .noRaw | .debug | .dump | .disasm => true
  | .config | .verbosity | .withFile => false

def set (flags : Flags) (flag : Flag) (value : Bytes) : Except FlagFault Flags :=
  match flag with
  | .config => .ok { flags with config := some value }
  | .withFile => .ok { flags with withFiles := flags.withFiles ++ [value] }
  | .verbosity =>
    match Literal.signed value with
    | .ok n => .ok { flags with verbosity := some n }
    | .error failure => .error (.invalidNumber (utf8 flag.name) value failure)
  | _ =>
    match (switch? value).bind (flags.setSwitch flag) with
    | some after => .ok after
    | none => .error (.invalidSwitch (utf8 flag.name) value)

/-- An argument taken apart: no flag at all, the mark after which there are no more flags, or a
flag with its value after an equals sign, if it has one. -/
inductive Shape
  | operand
  | terminator
  | malformed
  | flag (name : Bytes) (value : Option Bytes)
  deriving DecidableEq, Repr

/-- A name up to the first equals sign and the value behind it. The sign is not the first byte. -/
def splitValue (s : Bytes) : Bytes × Option Bytes :=
  match s.dropWhile (· ≠ equals) with
  | [] => (s, none)
  | _ :: value => (s.takeWhile (· ≠ equals), some value)

def shapeOfName (s : Bytes) : Shape :=
  match s with
  | [] => .malformed
  | b :: _ =>
    if b = dash || b = equals then .malformed
    else .flag (splitValue s).1 (splitValue s).2

def shape (argument : Bytes) : Shape :=
  match argument with
  | 45 :: 45 :: [] => .terminator
  | 45 :: 45 :: rest => shapeOfName rest
  | 45 :: b :: rest => shapeOfName (b :: rest)
  | _ => .operand

def isHelp (name : Bytes) : Bool := name = utf8 "help" || name = utf8 "h"

/-- Reads the flags at the front of the arguments; the rest are operands. -/
def parse (flags : Flags) : List Bytes → Except FlagFault (Flags × List Bytes)
  | [] => .ok (flags, [])
  | argument :: rest =>
    match shape argument with
    | .operand => .ok (flags, argument :: rest)
    | .terminator => .ok (flags, rest)
    | .malformed => .error (.badSyntax argument)
    | .flag name value =>
      match Flag.ofName? name with
      | none => if isHelp name then .error .help else .error (.notDefined name)
      | some flag =>
        match value with
        | some value => (flags.set flag value).bind fun flags => parse flags rest
        | none =>
          if isSwitch flag then
            (flags.set flag (utf8 "true")).bind fun flags => parse flags rest
          else match rest with
            | [] => .error (.needsArgument name)
            | value :: rest => (flags.set flag value).bind fun flags => parse flags rest

end Flags

end Sardine
