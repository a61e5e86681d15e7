import Sardine.Directory
import Sardine.Proofs.Arguments
import Sardine.Settings.File

/-! Where the settings come from.
A setting is what the last occurrence of its flag says; if its flag is not given, what the settings
file says; and if that says nothing, it is as always. The files to read from are those of the
settings file and then those of the flags. How occurrences of different flags are mixed does not
matter. -/
namespace Sardine

/-- What is relied on in a decoder. The keys in a text that it takes set their settings, whatever
these were before, and all other settings are left alone. -/
structure Decoder.Follows (decode : Decoder) (meaning : Bytes → FileSettings) : Prop where
  takes : ∀ {text : Bytes} {s after : Settings}, decode text s = .ok after →
    after = (meaning text).override s

/-- What a text says in the format of the command line's own decoder. -/
def FileSettings.ofText (text : Bytes) : FileSettings := (decode? text).getD {}

theorem FileSettings.decoder_follows : decoder.Follows ofText := by
  constructor
  intro text s after h
  unfold decoder at h
  rw [ofText]
  cases hdecode : decode? text with
  | none => simp [hdecode] at h
  | some file =>
    rw [hdecode] at h
    exact (Except.ok.inj h).symm

namespace Settings

open Sardine.Flag (Occurrence)
open Sardine.Flag.Occurrence (values)

/-- The settings file that is asked for: the last one named counts, and an empty name names none. -/
def namedFile? (given : List Occurrence) : Option Bytes :=
  (values .config given).getLast?.filter (! ·.isEmpty)

section File

variable (decode : Decoder) (meaning : Bytes → FileSettings) (files : Files)

/-- What the settings file says, if one is asked for. It can be read then, and the decoder takes
it. -/
inductive FileSays (given : List Occurrence) : FileSettings → Prop
  | unasked (h : namedFile? given = none) : FileSays given {}
  | read {name text : Bytes} {s : Settings} (h : namedFile? given = some name)
      (hfile : files name = .ok text) (hdecode : decode text {} = .ok s) :
      FileSays given (meaning text)

end File

/-- The last of the values that are given, or else what the file says, or else the default. -/
def preferred {α : Type} (given : List α) (file : Option α) (default : α) : α :=
  (given.getLast?.or file).getD default

def settled (given : List Occurrence) (file : FileSettings) : Settings where
  raw := preferred ((values .noRaw given).map (! ·)) file.raw true
  debug := preferred (values .debug given) file.debug false
  dump := preferred (values .dump given) file.dump false
  disasm := preferred (values .disasm given) file.disasm false
  verbosity := preferred (values .verbosity given) file.verbosity 0
  withFiles := file.withFiles.getD [] ++ values .withFile given

theorem apply_override (given : List Occurrence) (file : FileSettings) :
    apply (Flags.ofGiven given) (file.override {}) = settled given file := by
  have hchoice : ∀ {α : Type} (last file : Option α) (default : α),
      last.getD (file.getD default) = (last.or file).getD default := by
    intro α last file default
    cases last <;> rfl
  simp only [apply, FileSettings.override, Flags.ofGiven, settled, preferred, List.getLast?_map,
    hchoice]

section Load

variable {decode : Decoder} {meaning : Bytes → FileSettings} (hdecoder : decode.Follows meaning)
  {files : Files} {given : List Occurrence}
include hdecoder

theorem load_of_fileSays {file : FileSettings} (h : FileSays decode meaning files given file) :
    load decode files (Flags.ofGiven given) = .ok (settled given file) := by
  have hname : fileName? (Flags.ofGiven given) = namedFile? given := rfl
  rw [load, hname, ← apply_override]
  cases h with
  | unasked h =>
    rw [h]
    rfl
  | read h hfile hdecode =>
    obtain rfl := hdecoder.takes hdecode
    simp only [h, hfile, hdecode]

omit hdecoder in
theorem fileSays_of_load {s : Settings} (h : load decode files (Flags.ofGiven given) = .ok s) :
    ∃ file, FileSays decode meaning files given file := by
  have hname : fileName? (Flags.ofGiven given) = namedFile? given := rfl
  rw [load, hname] at h
  cases hnamed : namedFile? given with
  | none => exact ⟨{}, .unasked hnamed⟩
  | some name =>
    cases hfile : files name with
    | error fault => simp [hnamed, hfile] at h
    | ok text =>
      cases hdecode : decode text {} with
      | error failure => simp [hnamed, hfile, hdecode] at h
      | ok after => exact ⟨_, .read hnamed hfile hdecode⟩

/-- Loading fails only with a file that cannot be read or that the decoder does not take. -/
theorem load_eq_ok_iff {s : Settings} :
    load decode files (Flags.ofGiven given) = .ok s ↔
      ∃ file, FileSays decode meaning files given file ∧ s = settled given file := by
  constructor
  · intro h
    obtain ⟨file, hsays⟩ := fileSays_of_load h
    rw [load_of_fileSays hdecoder hsays] at h
    exact ⟨file, hsays, (Except.ok.inj h).symm⟩
  · rintro ⟨file, hsays, rfl⟩
    exact load_of_fileSays hdecoder hsays

end Load

/-- Flags with the same values, but for names of files that do not count, come to the same
settings. -/
theorem load_congr {given given' : List Occurrence}
    (h : ∀ flag : Flag, flag ≠ .config → values flag given = values flag given')
    (hnamed : namedFile? given = namedFile? given') (decode : Decoder) (files : Files) :
    load decode files (Flags.ofGiven given) = load decode files (Flags.ofGiven given') := by
  have happly : ∀ s, apply (Flags.ofGiven given) s = apply (Flags.ofGiven given') s := by
    intro s
    simp only [apply, Flags.ofGiven, h .noRaw (by decide), h .debug (by decide),
      h .dump (by decide), h .disasm (by decide), h .verbosity (by decide), h .withFile (by decide)]
  have hname : fileName? (Flags.ofGiven given) = fileName? (Flags.ofGiven given') := hnamed
  simp only [load, hname, happly]

end Settings

open Flag.Occurrence (values) in
/-- Flags come before the settings file, and the settings file before the defaults. Arguments are
accepted just if they give flags in one of their spellings. Then every setting is the last value of
its flag, or what the file says, or the default, `-noraw` being the opposite of its setting; and the
files to read from are those of the file and then those of all flags. So it does not matter how
different flags are mixed. -/
theorem settings_by_precedence :
    (∀ {args operands : List Bytes} {flags : Flags}, Flags.parse {} args = .ok (flags, operands) →
      ∃ given, Flags.Gives args given operands) ∧
    ∀ {args operands : List Bytes} {given : List Flag.Occurrence},
      Flags.Gives args given operands →
        ∃ flags, Flags.parse {} args = .ok (flags, operands) ∧
          (∀ {decode : Decoder} {meaning : Bytes → FileSettings}, decode.Follows meaning →
            ∀ (files : Files) (s : Settings), Settings.load decode files flags = .ok s ↔
              ∃ file, Settings.FileSays decode meaning files given file ∧
                s = Settings.settled given file) ∧
          ∀ {args' operands' : List Bytes} {given' : List Flag.Occurrence},
            Flags.Gives args' given' operands' →
            (∀ flag : Flag, flag ≠ .config → values flag given = values flag given') →
            Settings.namedFile? given = Settings.namedFile? given' →
            ∃ flags', Flags.parse {} args' = .ok (flags', operands') ∧
              ∀ decode files,
                Settings.load decode files flags = Settings.load decode files flags' := by
  refine ⟨fun hparsed => ?_, ?_⟩
  · obtain ⟨given, hgives, -⟩ := Flags.parse_eq_ok_iff.mp hparsed
    exact ⟨given, hgives⟩
  · intro args operands given hgives
    have hparsed : ∀ {args operands given}, Flags.Gives args given operands →
        Flags.parse {} args = .ok (Flags.ofGiven given, operands) := fun {_ _ given} h =>
      Flags.parse_eq_ok_iff.mpr ⟨given, h, (Flags.foldl_note given).symm⟩
    refine ⟨_, hparsed hgives, fun hdecoder files s => Settings.load_eq_ok_iff hdecoder, ?_⟩
    intro args' operands' given' hgives' hvalues hnamed
    exact ⟨_, hparsed hgives', Settings.load_congr hvalues hnamed⟩

/-- The same flags, mixed and spelled in two ways. One of them sets back what the file says, one
makes raw what neither the file nor the first occurrence wants raw, and one is left to the file. -/
theorem settings_by_precedence_mixed :
    let text := utf8 "raw = false\ndump = true\nverbosity = 3\nwith = [\"a\"]"
    let dir : Directory := { files := [(utf8 "/c", text)] }
    let args := [utf8 "-v", utf8 "7", utf8 "-noraw", utf8 "-config", utf8 "/c", utf8 "--with=b",
      utf8 "-v=0", utf8 "-noraw=f", utf8 "--", utf8 "-p"]
    let args' := [utf8 "--config=/c", utf8 "-noraw=1", utf8 "-noraw=F", utf8 "-v", utf8 "0x7",
      utf8 "-with", utf8 "b", utf8 "--v", utf8 "00", utf8 "p"]
    let settings : Settings := { dump := true, withFiles := [utf8 "a", utf8 "b"] }
    (∃ given, Flags.Gives args given [utf8 "-p"]) ∧
      FileSettings.decoder.Follows FileSettings.ofText ∧
      ∃ flags flags', Flags.parse {} args = .ok (flags, [utf8 "-p"]) ∧
        Settings.load FileSettings.decoder dir.load flags = .ok settings ∧
        Flags.parse {} args' = .ok (flags', [utf8 "p"]) ∧
        Settings.load FileSettings.decoder dir.load flags' = .ok settings := by
  intro text dir args args' settings
  let given : List Flag.Occurrence :=
    [⟨.verbosity, (7 : Int)⟩, ⟨.noRaw, true⟩, ⟨.config, utf8 "/c"⟩, ⟨.withFile, utf8 "b"⟩,
      ⟨.verbosity, (0 : Int)⟩, ⟨.noRaw, false⟩]
  let given' : List Flag.Occurrence :=
    [⟨.config, utf8 "/c"⟩, ⟨.noRaw, true⟩, ⟨.noRaw, false⟩, ⟨.verbosity, (7 : Int)⟩,
      ⟨.withFile, utf8 "b"⟩, ⟨.verbosity, (0 : Int)⟩]
  have hone : Flags.IsDashes (utf8 "-") := Or.inl rfl
  have htwo : Flags.IsDashes (utf8 "--") := Or.inr rfl
  have hargs : args =
      [utf8 "-" ++ utf8 Flag.verbosity.name, utf8 "7", utf8 "-" ++ utf8 Flag.noRaw.name,
        utf8 "-" ++ utf8 Flag.config.name, utf8 "/c",
        utf8 "--" ++ (utf8 Flag.withFile.name ++ Flags.equals :: utf8 "b"),
        utf8 "-" ++ (utf8 Flag.verbosity.name ++ Flags.equals :: utf8 "0"),
        utf8 "-" ++ (utf8 Flag.noRaw.name ++ Flags.equals :: utf8 "f"), utf8 "--", utf8 "-p"] := by
    decide +kernel
  have hargs' : args' =
      [utf8 "--" ++ (utf8 Flag.config.name ++ Flags.equals :: utf8 "/c"),
        utf8 "-" ++ (utf8 Flag.noRaw.name ++ Flags.equals :: utf8 "1"),
        utf8 "-" ++ (utf8 Flag.noRaw.name ++ Flags.equals :: utf8 "F"),
        utf8 "-" ++ utf8 Flag.verbosity.name, utf8 "0x7", utf8 "-" ++ utf8 Flag.withFile.name,
        utf8 "b", utf8 "--" ++ utf8 Flag.verbosity.name, utf8 "00", utf8 "p"] := by
    decide +kernel
  have hgives : Flags.Gives args given [utf8 "-p"] := by
    rw [hargs]
    exact .apart hone rfl rfl (.bare hone rfl rfl (.apart hone rfl rfl (.joined htwo rfl
      (.joined hone rfl (.joined hone rfl .terminator)))))
  have hplain : Flags.IsPlain (utf8 "p") := Or.inr (by decide +kernel)
  have hgives' : Flags.Gives args' given' [utf8 "p"] := by
    rw [hargs']
    exact .joined htwo rfl (.joined hone rfl (.joined hone rfl (.apart hone rfl rfl
      (.apart hone rfl rfl (.apart htwo rfl rfl (.operand hplain))))))
  obtain ⟨haccepts, hlaw⟩ := settings_by_precedence
  obtain ⟨flags, hparsed, hload, hmixed⟩ := hlaw hgives
  have hvalues : ∀ flag : Flag, flag ≠ .config →
      Flag.Occurrence.values flag given = Flag.Occurrence.values flag given' := by
    intro flag hflag
    cases flag with
    | config => exact absurd rfl hflag
    | _ => rfl
  obtain ⟨flags', hparsed', hsame⟩ := hmixed hgives' hvalues rfl
  have hfile : dir.load (utf8 "/c") = .ok text := by decide +kernel
  have hdecode : FileSettings.decoder text {} =
      .ok { raw := false, dump := true, verbosity := 3, withFiles := [utf8 "a"] } := by
    decide +kernel
  have hsettled : Settings.load FileSettings.decoder dir.load flags = .ok settings :=
    (hload FileSettings.decoder_follows dir.load settings).mpr
      ⟨_, .read rfl hfile hdecode, by decide +kernel⟩
  exact ⟨haccepts hparsed, FileSettings.decoder_follows, flags, flags', hparsed, hsettled, hparsed',
    (hsame FileSettings.decoder dir.load) ▸ hsettled⟩

end Sardine
