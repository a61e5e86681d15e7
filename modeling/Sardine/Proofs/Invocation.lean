import Sardine.Command
import Sardine.Directory
import Sardine.Proofs.Tracing
import Sardine.Settings.File

/-! Diagnostics change nothing.
Debugging and verbosity are settings about what an invocation says on standard error. Its exit
status and what it does on standard output are the same whatever they are set to, on every way
through the command, and so is what a machine does whatever trace it keeps. -/
namespace Sardine

namespace Settings

def silent (s : Settings) : Settings := { s with debug := false, verbosity := 0 }

theorem of_silent {s s' : Settings} (h : s.silent = s'.silent) :
    s.dump = s'.dump ∧ s.disasm = s'.disasm ∧ s.withFiles = s'.withFiles := by
  simp only [silent, Settings.mk.injEq, true_and] at h
  exact h.2

/-- Settings that differ in the diagnostics only, or that cannot be loaded in both cases. -/
inductive LoadedAlike : Except Failure Settings → Except Failure Settings → Prop
  | ok {s s' : Settings} (h : s.silent = s'.silent) : LoadedAlike (.ok s) (.ok s')
  | error (e e' : Failure) : LoadedAlike (.error e) (.error e')

end Settings

namespace Queue

theorem feedFiles_congr {files files' : Files} {names : List Bytes}
    (h : ∀ name ∈ names, files name = files' name) (q : Queue) :
    feedFiles files names q = feedFiles files' names q := by
  induction names generalizing q with
  | nil => rfl
  | cons name names ih =>
    have hfirst : feedFile files name q = feedFile files' name q := by
      rw [feedFile, feedFile, h name List.mem_cons_self]
    have hrest := ih fun other hother => h other (List.mem_cons_of_mem _ hother)
    simp only [feedFiles, hfirst, hrest]

theorem feedAll_congr {files files' : Files} {names : List Bytes}
    (h : ∀ name ∈ names, files name = files' name) (r : Reader) (q : Queue) :
    feedAll files names r q = feedAll files' names r q := by
  rw [feedAll, feedAll, feedFiles_congr h]

end Queue

namespace Machine.Run

variable (r : Run)

theorem reply_hushed : (Session.ofRun (r.map hushed)).1 = (Session.ofRun r).1 := by
  cases r with
  | unfinished m => rfl
  | settled step => cases step <;> rfl

theorem machine_hushed :
    (Session.ofRun (r.map hushed)).2.machine = (Session.ofRun r).2.machine.hushed := by
  cases r with
  | unfinished m => rfl
  | settled step => cases step <;> rfl

end Machine.Run

namespace Command

open Machine

/-- Two invocations with the same exit status, or none yet, and the same calls on standard
output. -/
structure Course.Alike (c c' : Course) : Prop where
  status : c.status? = c'.status?
  calls : c.calls = c'.calls

namespace Course.Alike

theorem refl (c : Course) : c.Alike c := ⟨rfl, rfl⟩

theorem symm {c c' : Course} (h : c.Alike c') : c'.Alike c := ⟨h.status.symm, h.calls.symm⟩

theorem trans {c c' c'' : Course} (h : c.Alike c') (h' : c'.Alike c'') : c.Alike c'' :=
  ⟨h.status.trans h'.status, h.calls.trans h'.calls⟩

end Course.Alike

section Silent

variable {s s' : Settings}

theorem alike_failure (machine machine' : Option Machine) (e e' : Error) :
    (Course.ended (failure s machine e)).Alike (.ended (failure s' machine' e')) :=
  ⟨rfl, rfl⟩

theorem alike_operandReport :
    (Course.ended (operandReport s)).Alike (.ended (operandReport s')) :=
  ⟨by simp only [Course.status?, operandReport, failure],
    by simp only [Course.calls, operandReport, failure]⟩

theorem alike_conclude (machine machine' : Option Machine) (result : Outcome Unit × Output) :
    (conclude s machine result).Alike (conclude s' machine' result) := by
  obtain ⟨outcome, output⟩ := result
  cases outcome <;> exact ⟨rfl, rfl⟩

theorem dump_hushed (h : s.dump = s'.dump) (m : Machine) : dump s m = dump s' m.hushed := by
  rw [dump, dump, h]
  rfl

theorem alike_afterRun (h : s.dump = s'.dump) (error : Option Error) (m : Machine) :
    (afterRun s error m).Alike (afterRun s' error m.hushed) := by
  cases error with
  | none =>
    rw [afterRun, afterRun, dump_hushed h]
    exact alike_conclude _ _ _
  | some e =>
    rw [afterRun, afterRun]
    exact alike_conclude _ _ _

theorem alike_ofReply (h : s.dump = s'.dump) (m : Machine) (reply : Session.Reply) :
    (ofReply s m reply).Alike (ofReply s' m.hushed reply) := by
  cases reply with
  | returned error => exact alike_afterRun h error m
  | _ => exact Course.Alike.refl _

/-- What an invocation has come to with a machine that has made so many steps. -/
def ofMachine (fuel : Nat) (s : Settings) (m : Machine) : Course :=
  ofReply s (Session.ofRun (run fuel m)).2.machine (Session.ofRun (run fuel m)).1

theorem alike_ofMachine (h : s.dump = s'.dump) {m m' : Machine} (hm : m.hushed = m'.hushed)
    (fuel : Nat) : (ofMachine fuel s m).Alike (ofMachine fuel s' m') := by
  -- Both runs are compared with the run of the hushed machine, of which there is but one.
  have hsame : (run fuel m).map hushed = (run fuel m').map hushed := by
    rw [← run_hushed, ← run_hushed, hm]
  have hreply : (Session.ofRun (run fuel m)).1 = (Session.ofRun (run fuel m')).1 := by
    rw [← Run.reply_hushed, hsame, Run.reply_hushed]
  have hmachine : (Session.ofRun (run fuel m)).2.machine.hushed =
      (Session.ofRun (run fuel m')).2.machine.hushed := by
    rw [← Run.machine_hushed, hsame, Run.machine_hushed]
  have hleft := alike_ofReply h (Session.ofRun (run fuel m)).2.machine
    (Session.ofRun (run fuel m)).1
  rw [hmachine, hreply] at hleft
  rw [ofMachine, ofMachine, hreply]
  exact hleft.trans (alike_ofReply rfl _ _).symm

/-- The machine that is launched, but for its trace, does not depend on the settings. -/
theorem launch_cases (s s' : Settings) (program : Program) (q : Queue) (stdout : Device) :
    (∃ c c', launch s program q stdout = .error c ∧ launch s' program q stdout = .error c' ∧
        c.Alike c') ∨
      ∃ m m', launch s program q stdout = .ok m ∧ launch s' program q stdout = .ok m' ∧
        m.hushed = m'.hushed := by
  simp only [launch, machine, create]
  cases program.fault? with
  | some fault => exact Or.inl ⟨_, _, rfl, rfl, alike_failure _ _ _ _⟩
  | none => exact Or.inr ⟨_, _, rfl, rfl, rfl⟩

theorem alike_runProgram (h : s.dump = s'.dump) (fuel : Nat) (program : Program) (q : Queue)
    (stdout : Device) :
    (runProgram fuel s program q stdout).Alike (runProgram fuel s' program q stdout) := by
  unfold runProgram
  rcases launch_cases s s' program q stdout with
    ⟨c, c', hown, hother, halike⟩ | ⟨m, m', hown, hother, hm⟩
  · rw [hown, hother]
    exact halike
  · rw [hown, hother]
    exact alike_ofMachine h hm fuel

end Silent

section Akin

variable (decode : Decoder) (files files' : Files) (args args' : List Bytes)

/-- Two invocations on the same operands, with settings that differ in the diagnostics only. What
the files hold may differ as well, but for those from which the program and its input come. -/
structure Akin (flags flags' : Flags) (operands : List Bytes) : Prop where
  parsed : Flags.parse {} args = .ok (flags, operands)
  parsed' : Flags.parse {} args' = .ok (flags', operands)
  loaded : Settings.LoadedAlike (Settings.load decode files flags)
    (Settings.load decode files' flags')
  files : ∀ settings, Settings.load decode files flags = .ok settings →
    ∀ name, name ∈ operands ∨ name ∈ settings.withFiles → files name = files' name

end Akin

/-- Two invocations that are over alike, or are about to run the same program with settings that
differ in the diagnostics only. -/
inductive Stage.Alike (feeds : List Bytes → Prop) : Stage → Stage → Prop
  | done {c c' : Course} (h : c.Alike c') : Alike feeds (.done c) (.done c')
  | ready {s s' : Settings} (h : s.silent = s'.silent) (hfeeds : feeds s.withFiles)
      (program : Program) : Alike feeds (.ready s program) (.ready s' program)

section Course

variable {decode : Decoder} {files files' : Files} {args args' : List Bytes}
  {flags flags' : Flags} {operands : List Bytes}
  (h : Akin decode files files' args args' flags flags' operands)
include h

theorem alike_prepare (stdout : Device) :
    Stage.Alike (fun names => ∀ name ∈ names, files name = files' name)
      (prepare decode files args stdout) (prepare decode files' args' stdout) := by
  obtain ⟨hparsed, hparsed', hloaded, hfiles⟩ := h
  rw [prepare, prepare, hparsed, hparsed']
  generalize hload : Settings.load decode files flags = loaded at hloaded hfiles
  generalize hload' : Settings.load decode files' flags' = loaded' at hloaded
  cases hloaded with
  | error e e' =>
    simp only [hload, hload']
    exact .done (alike_failure _ _ _ _)
  | @ok s s' hsilent =>
    obtain ⟨-, hdisasm, -⟩ := Settings.of_silent hsilent
    have hfiles := hfiles s rfl
    simp only [hload, hload']
    match operands with
    | [name] =>
      simp only [hfiles name (Or.inl List.mem_cons_self)]
      cases compileFile name (files' name) with
      | error e => exact .done (alike_failure _ _ _ _)
      | ok program =>
        simp only [hdisasm]
        split
        · exact .done (alike_conclude _ _ _)
        · exact .ready hsilent (fun file hfile => hfiles file (Or.inr hfile)) program
    | [] => exact .done alike_operandReport
    | _ :: _ :: _ => exact .done alike_operandReport

/-- Invocations that differ in the diagnostics only have the same course. -/
theorem alike_course (fuel : Nat) (stdin : Bytes) (stdout : Device) :
    (course fuel decode files args stdin stdout).Alike
      (course fuel decode files' args' stdin stdout) := by
  have hstages := alike_prepare h stdout
  unfold course
  generalize prepare decode files args stdout = stage at hstages ⊢
  generalize prepare decode files' args' stdout = stage' at hstages ⊢
  cases hstages with
  | done halike => exact halike
  | @ready s s' hsilent hfeeds program =>
    obtain ⟨hdump, -, hwith⟩ := Settings.of_silent hsilent
    have hfed := Queue.feedAll_congr hfeeds (.script [.data stdin none]) {}
    simp only [← hwith, hfed]
    exact alike_runProgram hdump fuel program _ stdout

end Course

end Command

end Sardine
