import Sardine.Settings.Flags
import Sardine.Error

/-! The settings of an invocation: defaults, overridden by a file, overridden by flags.
The files to read from are those of the file followed by those of the flags. -/
namespace Sardine

structure Settings where
  raw : Bool := true
  debug : Bool := false
  dump : Bool := false
  disasm : Bool := false
  verbosity : Int := 0
  withFiles : List Bytes := []
  deriving DecidableEq, Repr

/-- What a file says; a key that is not there says nothing. -/
structure FileSettings where
  raw : Option Bool := none
  debug : Option Bool := none
  dump : Option Bool := none
  disasm : Option Bool := none
  verbosity : Option Int := none
  withFiles : Option (List Bytes) := none
  deriving DecidableEq, Repr

def FileSettings.override (file : FileSettings) (s : Settings) : Settings :=
  { raw := file.raw.getD s.raw
    debug := file.debug.getD s.debug
    dump := file.dump.getD s.dump
    disasm := file.disasm.getD s.disasm
    verbosity := file.verbosity.getD s.verbosity
    withFiles := file.withFiles.getD s.withFiles }

/-- What takes over the settings in the text of a file. Where the text is spoiled, there is a
message on it, and the settings are as far as they have been taken over by then. -/
abbrev Decoder := Bytes → Settings → Except (Bytes × Settings) Settings

namespace Settings

/-- Applies the flags that are given. `noraw` says the opposite of `raw`. -/
def apply (flags : Flags) (s : Settings) : Settings :=
  { raw := (flags.noRaw.map (! ·)).getD s.raw
    debug := flags.debug.getD s.debug
    dump := flags.dump.getD s.dump
    disasm := flags.disasm.getD s.disasm
    verbosity := flags.verbosity.getD s.verbosity
    withFiles := s.withFiles ++ flags.withFiles }

def fileNote : Bytes := utf8 "config"

def fileName? (flags : Flags) : Option Bytes := flags.config.filter (! ·.isEmpty)

/-- An error in the settings, and those that are in force when it is reported. -/
structure Failure where
  error : Error
  settings : Settings := {}
  deriving DecidableEq, Repr

def load (decode : Decoder) (files : Files) (flags : Flags) : Except Failure Settings :=
  match fileName? flags with
  | none => .ok (apply flags {})
  | some name =>
    match files name with
    | .error fault => .error { error := ⟨.file fault, [fileNote]⟩ }
    | .ok text =>
      match decode text {} with
      | .error (message, settings) =>
        .error { error := ⟨.settingsFile message, [fileNote]⟩, settings }
      | .ok settings => .ok (apply flags settings)

end Settings

end Sardine
