import Sardine.Proofs.Calls
import Sardine.Proofs.Calm
import Sardine.Proofs.Instructions
import Sardine.Proofs.Language

/-! Compiled programs run safely.
The compiler assigns every opcode, selects only cells of tanks and resolves every jump. From this
the program counter and the pointer stay in range in every call, so that nothing goes wrong but a
division by zero, a number that is none, and what the channels report. -/
namespace Sardine

/-- A program that the machine can execute at any of its instructions. -/
structure Program.Sound (program : Program) : Prop where
  assigned : ∀ ins ∈ program.code, ins.op ∈ Opcode.assigned
  pointer : ∀ ins ∈ program.code, ins.op = .setPointer → 0 ≤ ins.arg ∧ ins.arg ≤ 2018
  jumps : ∀ ins ∈ program.code, ∀ label, ins.Uses label →
    ∃ (n : Nat) (place : Instruction), program.labels.address? label = some (n : Int) ∧
      program.code[n]? = some place ∧ place.Defines label

theorem Phrase.assigned_of_mem_plainPhrases :
    ∀ entry ∈ Phrase.plainPhrases, entry.2 ∈ Opcode.assigned ∧ entry.2 ≠ .setPointer := by
  decide +kernel

theorem Phrase.assigned_instruction {text : Bytes} {p : Phrase} (hp : Phrase.Says text p) :
    p.instruction.op ∈ Opcode.assigned := by
  cases p with
  | plain op => exact (assigned_of_mem_plainPhrases _ hp.form.mem_plainPhrases).1
  | _ => simp [Phrase.instruction, Opcode.assigned]

theorem Phrase.arg_instruction {text : Bytes} {p : Phrase} (hp : Phrase.Says text p)
    (hvalid : p.IsValid) (hop : p.instruction.op = .setPointer) :
    0 ≤ p.instruction.arg ∧ p.instruction.arg ≤ 2018 := by
  cases p with
  | plain op => exact absurd hop (assigned_of_mem_plainPhrases _ hp.form.mem_plainPhrases).2
  | lookInto digits =>
    have hbound : Decimal.value digits ≤ 2018 := hvalid.bound
    exact ⟨Int.natCast_nonneg _, Int.ofNat_le.mpr hbound⟩
  | _ => simp [Phrase.instruction] at hop

theorem compile_sound {name source : Bytes} {program : Program}
    (h : compile name source = .ok program) : program.Sound := by
  obtain ⟨ps, hps, hdistinct, hresolved, rfl⟩ := compile_eq_ok_iff.mp h
  refine ⟨fun ins hins => ?_, fun ins hins hop => ?_, fun ins hins label huse => ?_⟩
  · obtain ⟨text, -, p, rfl, hsaid, -⟩ := hps.exists_says (List.mem_toArray.mp hins)
    exact Phrase.assigned_instruction hsaid
  · obtain ⟨text, -, p, rfl, hsaid, hvalid⟩ := hps.exists_says (List.mem_toArray.mp hins)
    exact Phrase.arg_instruction hsaid hvalid hop
  · obtain ⟨place, hplace, hdef⟩ := hresolved ins (List.mem_toArray.mp hins) label huse
    obtain ⟨n, hn⟩ := List.getElem?_of_mem hplace
    refine ⟨n, place, ?_, by simpa [Program.ofCode] using hn, hdef⟩
    exact (Program.address?_ofCode_iff hdistinct).mpr ⟨n, rfl, place, hn, hdef⟩

section Sound

variable {program : Program} (h : program.Sound)
include h

theorem Program.Sound.target {ins : Instruction} (hins : ins ∈ program.code)
    (hjump : ins.op.isJump = true) :
    0 ≤ program.target ins.label ∧ program.target ins.label < program.size := by
  obtain ⟨n, place, haddress, hplace, -⟩ := h.jumps ins hins ins.label ⟨hjump, rfl⟩
  have hlt : n < program.size := (Array.getElem?_eq_some_iff.mp hplace).1
  rw [Program.target, haddress]
  exact ⟨Int.natCast_nonneg n, Int.ofNat_lt.mpr hlt⟩

theorem Program.Sound.fault?_eq_none : program.fault? = none := by
  rw [Program.fault?, List.findSome?_eq_none_iff]
  rintro ⟨ins, pc⟩ hentry
  have hins : ins ∈ program.code := Array.mem_toList_iff.mp (List.fst_mem_of_mem_zipIdx hentry)
  unfold Program.faultAt?
  split
  · rename_i hjump
    obtain ⟨n, place, haddress, -⟩ := h.jumps ins hins ins.label ⟨hjump, rfl⟩
    have htarget := h.target hins hjump
    simp only [Program.target, haddress, Option.getD_some] at htarget
    have hinside : ¬ ((n : Int) < 0 ∨ (program.size : Int) ≤ n) := by omega
    simp only [haddress, hinside, if_false]
  · rfl

end Sound

/-- A cause that lies in the machine or in the program: a cell or an instruction that does not
exist, a jump that leads nowhere, or a crash. -/
def Cause.IsFault : Cause → Prop
  | outOfBounds _ _ => True
  | invalidOpcode _ => True
  | unresolved _ => True
  | crash _ => True
  | _ => False

/-- The errors with which a step of a compiled program comes back. -/
inductive StepError : Error → Prop
  | ended : StepError ⟨.ended, []⟩
  | instruction {e : Error} (h : InstructionError e) (m : Machine) : StepError (m.atPc e)
  | outputFlush {e : Error} (h : DeviceError e) : StepError (e.wrap Channels.flushNote)
  | outputClose {e : Error} (h : DeviceError e) : StepError (e.wrap Channels.closeNote)

theorem DeviceError.not_isFault {e : Error} (h : DeviceError e) : ¬ e.cause.IsFault := by
  cases h
  exact id

theorem InstructionError.not_isFault {e : Error} (h : InstructionError e) :
    ¬ e.cause.IsFault := by
  cases h with
  | divisionByZero => exact id
  | invalidNumber token => exact id
  | @inputRead stop _ => cases stop <;> exact id
  | outputFlush h => exact h.not_isFault
  | outputWrite h => exact h.not_isFault

theorem StepError.not_isFault {e : Error} (h : StepError e) : ¬ e.cause.IsFault := by
  cases h with
  | ended => exact id
  | instruction h _ => exact h.not_isFault
  | outputFlush h => exact h.not_isFault
  | outputClose h => exact h.not_isFault

def Session.Reply.Harmless : Session.Reply → Prop
  | returned (some e) => StepError e ∧ ¬ e.cause.IsFault
  | crashed _ => False
  | _ => True

namespace Machine

/-- What holds of a machine as long as it executes a compiled program. -/
structure Safe (program : Program) (m : Machine) : Prop where
  loaded : m.program = program
  counter : 0 ≤ m.pc ∧ m.pc ≤ program.size
  pointer : 0 ≤ m.ptr ∧ m.ptr ≤ 2018
  memory : 2018 < m.mem.size
  channels : m.channels.Calm
  trace : ∀ count, m.traceCrash count = none

/-- The same of a machine in the middle of an instruction. -/
structure Within (program : Program) (m : Machine) : Prop extends Safe program m where
  inside : m.pc < program.size

theorem Safe.inBounds {program : Program} {m : Machine} (h : m.Safe program) :
    m.inBounds = true := by
  have hlt : m.ptr < m.mem.size := by
    have := h.pointer.2
    have := h.memory
    omega
  simp [Machine.inBounds, h.pointer.1, hlt]

theorem Within.withChannels {program : Program} {m : Machine} (h : m.Within program)
    {channels : Channels} (hchannels : channels.Calm) : { m with channels }.Within program :=
  ⟨⟨h.loaded, h.counter, h.pointer, h.memory, hchannels, h.trace⟩, h.inside⟩

theorem Within.advance {program : Program} {m : Machine} (h : m.Within program) :
    m.advance.Safe program :=
  ⟨h.loaded, ⟨Int.le_add_one h.counter.1, h.inside⟩, h.pointer, h.memory, h.channels, h.trace⟩

theorem Within.store {program : Program} {m : Machine} (h : m.Within program) (v : Cell) :
    (m.store v).Within program :=
  ⟨⟨h.loaded, h.counter, h.pointer, by rw [size_store]; exact h.memory, h.channels, h.trace⟩,
    h.inside⟩

def Execution.Safe (program : Program) : Execution → Prop
  | next m => m.Safe program
  | halt m => m.Safe program
  | failed e m => InstructionError e ∧ m.Safe program
  | waiting _ m => m.Within program

theorem Within.afterFetch {program : Program} {m : Machine} (h : m.Within program)
    {result : Fetched × Channels} (hresult : result.1.Calm ∧ result.2.Calm) :
    (m.afterFetch result).Safe program := by
  obtain ⟨fetched, channels⟩ := result
  have hm := h.withChannels hresult.2
  cases fetched with
  | value v => exact (hm.store v).advance
  | failed e => exact ⟨hresult.1, hm.toSafe⟩
  | waiting w => exact hm

theorem Within.afterEmit {program : Program} {m : Machine} (h : m.Within program)
    {result : Option Error × Channels}
    (hresult : (∀ e, result.1 = some e → InstructionError e) ∧ result.2.Calm) :
    (m.afterEmit result).Safe program := by
  obtain ⟨error, channels⟩ := result
  have hm := h.withChannels hresult.2
  cases error with
  | none => exact hm.advance
  | some e => exact ⟨hresult.1 e rfl, hm.toSafe⟩

/-- No instruction of a sound program does harm. -/
theorem Within.execute {program : Program} (hprogram : program.Sound) {m : Machine}
    (h : m.Within program) {ins : Instruction} (hins : ins ∈ program.code) :
    (execute ins m).Safe program := by
  have hexecutes := executes ins m
  generalize Machine.execute ins m = result at hexecutes ⊢
  cases hexecutes with
  | pass => exact h.advance
  | store v => exact (h.store v).advance
  | point hop =>
    have hpointed : { m with ptr := ins.arg }.Within program :=
      ⟨⟨h.loaded, h.counter, hprogram.pointer ins hins hop, h.memory, h.channels, h.trace⟩,
        h.inside⟩
    exact hpointed.advance
  | jump hop =>
    obtain ⟨hlow, hhigh⟩ := hprogram.target hins hop
    refine ⟨h.loaded, ?_, h.pointer, h.memory, h.channels, h.trace⟩
    rw [Machine.jump, h.loaded]
    exact ⟨hlow, Int.le_of_lt hhigh⟩
  | fetch w _ => exact h.afterFetch (h.channels.fetch w)
  | emit bytes => exact h.afterEmit (h.channels.emit bytes)
  | exit => exact h.toSafe
  | divisionByZero => exact ⟨InstructionError.divisionByZero, h.toSafe⟩
  | unassigned n free hop =>
    have hassigned := hprogram.assigned ins hins
    simp [hop, Opcode.assigned] at hassigned

theorem Within.note {program : Program} {m : Machine} (h : m.Within program) (ins : Instruction) :
    (m.note ins).Within program := by
  have htrace : ∀ count, (m.note ins).traceCrash count = none := by
    rw [traceCrash_note]
    exact h.trace
  rw [note_eq] at htrace ⊢
  exact ⟨⟨h.loaded, h.counter, h.pointer, h.memory, h.channels, htrace⟩, h.inside⟩

theorem Within.exists_instruction {program : Program} {m : Machine} (h : m.Within program) :
    ∃ ins ∈ program.code, m.instruction? = some ins := by
  have hlow := h.counter.1
  have hlt : m.pc.toNat < program.code.size := by
    have := h.inside
    simp only [Program.size] at this
    omega
  refine ⟨program.code[m.pc.toNat], Array.getElem_mem hlt, ?_⟩
  rw [instruction?, if_neg (Int.not_lt.mpr hlow), h.loaded]
  exact Array.getElem?_eq_getElem hlt

theorem Within.perform {program : Program} (hprogram : program.Sound) {m : Machine}
    (h : m.Within program) : m.perform.Safe program := by
  obtain ⟨ins, hins, heq⟩ := h.exists_instruction
  have hupcoming : m.upcoming = .ok ins := upcoming_eq_ok_iff.mpr ⟨heq, h.trace m.count⟩
  rw [Machine.perform, if_pos h.inBounds, hupcoming]
  exact (h.note ins).execute hprogram hins

/-- What calls on a machine with a compiled program keep. -/
def safety (program : Program) : Session.Contract where
  idle m := m.Safe program
  held _ m := m.Within program
  reply := Session.Reply.Harmless

theorem Safe.finish {program : Program} {m : Machine} (h : m.Safe program) {error : Option Error}
    (herror : ∀ e, error = some e → InstructionError e) :
    (safety program).AfterStep (m.finish error) := by
  obtain ⟨hcrash, hfail, hcalm⟩ := h.channels.shut
  have hended : { m with status := .ended, channels := m.channels.shut.2 }.Safe program :=
    ⟨h.loaded, h.counter, h.pointer, h.memory, hcalm, h.trace⟩
  unfold Machine.finish
  split
  all_goals
    rename_i heq
    rw [heq] at hcrash hfail hended
  · exact absurd rfl (hcrash _)
  · have hstep := StepError.instruction (herror _ rfl) m
    exact ⟨⟨hstep, hstep.not_isFault⟩, hended⟩
  · exact ⟨trivial, hended⟩
  · obtain ⟨cause, hcause, rfl | rfl⟩ := hfail _ rfl
    · have hstep := StepError.outputFlush hcause
      exact ⟨⟨hstep, hstep.not_isFault⟩, hended⟩
    · have hstep := StepError.outputClose hcause
      exact ⟨⟨hstep, hstep.not_isFault⟩, hended⟩

theorem settle_safe {program : Program} {execution : Execution} (h : execution.Safe program) :
    (safety program).AfterStep (settle execution) := by
  cases execution with
  | next m =>
    simp only [settle]
    split
    · exact Safe.finish h (by simp)
    · exact ⟨trivial, h⟩
  | halt m => exact Safe.finish h (by simp)
  | failed e m => exact Safe.finish h.2 (fun _ he => Option.some.inj he ▸ h.1)
  | waiting w m => exact ⟨trivial, h⟩

theorem Safe.step {program : Program} (hprogram : program.Sound) {m : Machine}
    (h : m.Safe program) : (safety program).AfterStep m.step := by
  unfold Machine.step
  split
  · exact ⟨⟨StepError.ended, StepError.ended.not_isFault⟩, h⟩
  · split
    · exact h.finish (by simp)
    · rename_i hmore
      have hinside : m.pc < program.size := by
        simpa [isPastEnd, h.loaded] using hmore
      exact settle_safe (Within.perform hprogram ⟨h, hinside⟩)

theorem Within.resume {program : Program} {w : Wait} {m : Machine} (h : m.Within program) :
    (safety program).AfterStep (Machine.resume w m) :=
  settle_safe (h.afterFetch (h.channels.receive))

theorem safety_kept {program : Program} (h : program.Sound) : (safety program).Kept where
  unfinished := trivial
  step := Safe.step h
  resume := Within.resume
  idle_queue _ hm :=
    ⟨hm.loaded, hm.counter, hm.pointer, hm.memory, ⟨trivial, hm.channels.output⟩, hm.trace⟩
  held_queue _ hm := hm.withChannels ⟨trivial, hm.channels.output⟩

theorem safe_of_holds {program : Program} {s : Session} (h : (safety program).Holds s) :
    s.machine.Safe program := by
  obtain ⟨m, suspended⟩ := s
  cases suspended with
  | none => exact h
  | some held => exact Within.toSafe h

/-- A setting with which a compiled program can be executed. -/
def Setting.Fits : Setting → Prop
  | .input given => given.Calm
  | .output given => given.Calm
  | .memorySize size => 2019 ≤ size ∧ size ≤ mostCells
  | .trace given => ∀ count, given.crash count = none

theorem Safe.start (program : Program) : (start program).Safe program where
  loaded := rfl
  counter := ⟨Int.le_refl 0, Int.natCast_nonneg _⟩
  pointer := ⟨Int.le_refl 0, show (0 : Int) ≤ 2018 by decide⟩
  memory := by simp [Machine.start, defaultMemorySize]
  channels := ⟨trivial, trivial⟩
  trace _ := rfl

theorem Safe.set {program : Program} {m : Machine} (h : m.Safe program) {setting : Setting}
    (hfits : setting.Fits) : ∃ after, m.set setting = .ok after ∧ after.Safe program := by
  cases setting with
  | input input =>
    exact ⟨_, rfl, h.loaded, h.counter, h.pointer, h.memory, ⟨hfits, h.channels.output⟩, h.trace⟩
  | output output =>
    exact ⟨_, rfl, h.loaded, h.counter, h.pointer, h.memory, ⟨h.channels.input, hfits⟩, h.trace⟩
  | memorySize size =>
    obtain ⟨hlow, hhigh⟩ := hfits
    have hpositive : ¬ size ≤ 0 := by omega
    have hpossible : ¬ mostCells < size.toNat := by omega
    have hroom : 2018 < (Array.replicate size.toNat (0 : Cell)).size := by
      rw [Array.size_replicate]
      omega
    refine ⟨{ m with mem := Array.replicate size.toNat 0 }, ?_, h.loaded, h.counter, h.pointer,
      hroom, h.channels, h.trace⟩
    rw [Machine.set, if_neg hpositive, if_neg hpossible]
  | trace trace => exact ⟨_, rfl, h.loaded, h.counter, h.pointer, h.memory, h.channels, hfits⟩

theorem Safe.setAll {program : Program} {m : Machine} (h : m.Safe program)
    {settings : List Setting} (hfits : ∀ setting ∈ settings, setting.Fits) :
    ∃ after, m.setAll settings = (.ok (), after) ∧ after.Safe program := by
  induction settings generalizing m with
  | nil => exact ⟨m, rfl, h⟩
  | cons setting settings ih =>
    obtain ⟨next, hnext, hsafe⟩ := h.set (hfits setting List.mem_cons_self)
    obtain ⟨after, hafter, hlast⟩ :=
      ih hsafe fun other hother => hfits other (List.mem_cons_of_mem _ hother)
    refine ⟨after, ?_, hlast⟩
    rw [Machine.setAll, hnext]
    exact hafter

theorem create_safe {program : Program} (h : program.Sound) {settings : List Setting}
    (hfits : ∀ setting ∈ settings, setting.Fits) :
    ∃ m, create (some program) settings = .ok m ∧ m.Safe program := by
  obtain ⟨m, hm, hsafe⟩ := (Safe.start program).setAll hfits
  refine ⟨m, ?_, hsafe⟩
  simp only [create, h.fault?_eq_none, hm]

end Machine

/-- A compiled program can be put on a machine, and then no sequence of calls comes to a fault. -/
theorem compiled_never_faults {name source : Bytes} {program : Program}
    (h : compile name source = .ok program) {settings : List Machine.Setting}
    (hfits : ∀ setting ∈ settings, setting.Fits) :
    program.Sound ∧ ∃ m, Machine.create (some program) settings = .ok m ∧
      ∀ actions : List Session.Action,
        (∀ reply ∈ (Session.actAll { machine := m } actions).1, reply.Harmless) ∧
          (Session.actAll { machine := m } actions).2.machine.Safe program := by
  have hsound := compile_sound h
  obtain ⟨m, hm, hsafe⟩ := Machine.create_safe hsound hfits
  refine ⟨hsound, m, hm, fun actions => ?_⟩
  have hkept := (Machine.safety_kept hsound).actAll (s := { machine := m }) hsafe actions
  exact ⟨hkept.1, Machine.safe_of_holds hkept.2⟩

/-- A loop at the last tank, in the smallest memory for it, that reads from a queue and writes to a
buffered device whose writes fail. -/
theorem compiled_never_faults_lastTank :
    let device : Device := { faults := { write := fun _ => some (.error (utf8 "broken")) } }
    ∃ program,
      compile [] (utf8 "2018番目の水槽をのぞく\nビルに着いた\nイワシを数えてみよう\nビルへ泳いでいこう") =
        .ok program ∧
      ∃ m, Machine.create (some program)
          [.memorySize 2019, .input (.queue {}), .output (.buffered { device })] = .ok m ∧
        ∀ actions : List Session.Action,
          (∀ reply ∈ (Session.actAll { machine := m } actions).1, reply.Harmless) ∧
            (Session.actAll { machine := m } actions).2.machine.Safe program := by
  intro device
  have h : compile [] (utf8 "2018番目の水槽をのぞく\nビルに着いた\nイワシを数えてみよう\nビルへ泳いでいこう") =
      .ok ⟨#[{ op := .setPointer, arg := 2018 }, { op := .nop, label := utf8 "ビル" },
        { op := .getNumber }, { op := .jumpIfPositive, label := utf8 "ビル" }],
        [(utf8 "ビル", 1)]⟩ :=
    compile_of_toOption (by decide +kernel)
  refine ⟨_, h, (compiled_never_faults h ?_).2⟩
  have hdevice : device.Calm := by
    constructor <;> exact fun _ _ _ => by simp [device]
  have hbuffered : BufferedDevice.Calm { device } := ⟨hdevice, by simp⟩
  simpa [Machine.Setting.Fits, Machine.mostCells, Input.Calm, Output.Calm] using hbuffered

/-- There are memories too large to be had, and with one of them no machine comes about. -/
theorem create_memory_too_large :
    compile [] (utf8 "今日はもう帰ろう") = .ok ⟨#[{ op := .exit }], []⟩ ∧
      (2019 : Int) ≤ 9223372036854775807 ∧
      Machine.create (some ⟨#[{ op := .exit }], []⟩) [.memorySize 9223372036854775807] =
        .crashed (utf8 "runtime error: makeslice: len out of range") :=
  ⟨compile_of_toOption (by decide +kernel), by decide, rfl⟩

end Sardine
