import Sardine.Proofs.Bounds
import Sardine.Proofs.Lockstep

/-! Programs that cannot be told apart by running them.
What a program does is decided by its opcodes, the pointers it sets and the addresses of its jumps.
Machines with two programs that have these in common go in lockstep, whether a trace is kept or not,
if the traces crash alike. -/
namespace Sardine

/-- An instruction of one program that does what another does in its own program. -/
structure Instruction.Mirrors (program other : Program) (ins image : Instruction) : Prop where
  op : image.op = ins.op
  arg : image.arg = ins.arg
  address : ins.op.isJump = true →
    other.labels.address? image.label = program.labels.address? ins.label

namespace Program

/-- A program that does at every address what another does there. -/
structure Mirrors (program other : Program) : Prop where
  size : other.size = program.size
  code : ∀ n : Nat,
    Option.Rel (Instruction.Mirrors program other) program.code[n]? other.code[n]?

namespace Mirrors

theorem refl (program : Program) : program.Mirrors program := by
  refine ⟨rfl, fun n => ?_⟩
  cases program.code[n]? with
  | none => exact Option.Rel.none
  | some ins => exact Option.Rel.some ⟨rfl, rfl, fun _ => rfl⟩

variable {program other : Program} (h : program.Mirrors other)
include h

theorem symm : other.Mirrors program := by
  refine ⟨h.size.symm, fun n => ?_⟩
  have hcode := h.code n
  revert hcode
  generalize program.code[n]? = ins?
  generalize other.code[n]? = image?
  intro hcode
  cases hcode with
  | none => exact Option.Rel.none
  | some himage =>
    apply Option.Rel.some
    refine ⟨himage.op.symm, himage.arg.symm, fun hjump => ?_⟩
    rw [himage.op] at hjump
    exact (himage.address hjump).symm

/-- A program all of whose jumps lead into it is mirrored by such programs only. -/
theorem fault?_eq_none (hfault : program.fault? = none) : other.fault? = none := by
  rw [fault?, List.findSome?_eq_none_iff] at hfault ⊢
  rintro ⟨image, pc⟩ hentry
  have hget : other.code[pc]? = some image := by
    simpa using List.mk_mem_zipIdx_iff_getElem?.mp hentry
  have hcode := h.code pc
  rw [hget] at hcode
  generalize hown : program.code[pc]? = ins? at hcode
  cases hcode with
  | @some ins _ himage =>
    have hentry : (ins, pc) ∈ program.code.toList.zipIdx :=
      List.mk_mem_zipIdx_iff_getElem?.mpr (by simpa using hown)
    have hnone := hfault (ins, pc) hentry
    simp only [faultAt?, himage.op, h.size] at hnone ⊢
    by_cases hjump : ins.op.isJump = true
    · rw [if_pos hjump] at hnone ⊢
      rw [himage.address hjump]
      cases haddress : program.labels.address? ins.label with
      | none => simp [haddress] at hnone
      | some address => simpa [haddress] using hnone
    · rw [if_neg hjump]

end Mirrors

end Program

namespace Machine

def load (program : Program) (m : Machine) : Machine := { m with program }

/-- The machine with another program and with a trace of which nothing is left but its crashes. -/
def recast (program : Program) (m : Machine) : Machine :=
  { m with program, trace := some { detailed := false, crash := m.traceCrash } }

/-- Two machines that show the same to those who drive them, apart from the trace. -/
structure Agrees (m other : Machine) : Prop where
  pc : m.pc = other.pc
  ptr : m.ptr = other.ptr
  mem : m.mem = other.mem
  status : m.status = other.status
  count : m.count = other.count
  channels : m.channels = other.channels

theorem agrees_of_recast {program : Program} {m other : Machine}
    (h : m.recast program = other.recast program) : m.Agrees other := by
  simp only [recast, Machine.mk.injEq, true_and] at h
  obtain ⟨hpc, hptr, hmem, hstatus, hcount, hchannels, -⟩ := h
  exact ⟨hpc, hptr, hmem, hstatus, hcount, hchannels⟩

section Recast

variable {other : Program} {m : Machine}

theorem note_recast (ins image : Instruction) :
    (m.recast other).note image = (m.note ins).recast other := by
  have hnoted : (m.note ins).recast other =
      { m with
        program := other
        count := m.count + 1
        trace := some { detailed := false, crash := m.traceCrash } } := by
    rw [recast, traceCrash_note, note_eq]
  rw [hnoted]
  rfl

theorem finish_recast (error : Option Error) :
    (m.recast other).finish error = (m.finish error).map (recast other) := by
  have hchannels : (m.recast other).channels = m.channels := rfl
  unfold finish
  rw [hchannels]
  split <;> rfl

theorem afterFetch_recast (result : Fetched × Channels) :
    (m.recast other).afterFetch result = (m.afterFetch result).map (recast other) := by
  obtain ⟨fetched, channels⟩ := result
  cases fetched <;> rfl

theorem afterEmit_recast (result : Option Error × Channels) :
    (m.recast other).afterEmit result = (m.afterEmit result).map (recast other) := by
  obtain ⟨error, channels⟩ := result
  cases error <;> rfl

theorem execute_recast {ins image : Instruction}
    (h : Instruction.Mirrors m.program other ins image) :
    execute image (m.recast other) = (execute ins m).map (recast other) := by
  have hop' := h.op
  have hcurrent : (m.recast other).current = m.current := rfl
  have hjump : ins.op.isJump = true →
      (m.recast other).jump image.label = (m.jump ins.label).recast other := by
    intro hjump
    have htarget : other.target image.label = m.program.target ins.label := by
      rw [Program.target, Program.target, h.address hjump]
    exact congrArg (fun pc => ({ m.recast other with pc } : Machine)) htarget
  cases hop : ins.op with
  | getChar | getNumber =>
    simp only [execute, hop', hop, afterFetch_detached]
    exact afterFetch_recast _
  | putChar | putNumber =>
    simp only [execute, hop', hop, afterEmit_detached]
    exact afterEmit_recast _
  | divide =>
    have hoperand : ∀ k, (m.recast other).operand k = m.operand k := fun _ => rfl
    simp only [execute, hop', hop, hoperand]
    split <;> rfl
  | setPointer =>
    simp only [execute, hop', hop, h.arg]
    rfl
  | jumpIfPositive | jumpIfZero =>
    simp only [execute, hop', hop, hcurrent, hjump (by rw [hop]; rfl)]
    split <;> rfl
  | _ =>
    simp only [execute, hop', hop]
    rfl

theorem isPastEnd_recast (h : m.program.Mirrors other) :
    (m.recast other).isPastEnd = m.isPastEnd := by
  have hsize : (m.recast other).program.size = m.program.size := h.size
  rw [isPastEnd, hsize]
  rfl

theorem upcoming_recast (h : m.program.Mirrors other) :
    (∃ e, m.upcoming = .error e ∧ (m.recast other).upcoming = .error e) ∨
      ∃ ins image, Instruction.Mirrors m.program other ins image ∧ m.upcoming = .ok ins ∧
        (m.recast other).upcoming = .ok image := by
  have hsize : (m.recast other).program.size = m.program.size := h.size
  have hcrash : (m.recast other).traceCrash = m.traceCrash := rfl
  have hpc : (m.recast other).pc = m.pc := rfl
  have hcount : (m.recast other).count = m.count := rfl
  have hcode : (m.recast other).program.code = other.code := rfl
  simp only [upcoming, instruction?, hpc, hcode, hsize, hcrash, hcount]
  by_cases hlow : m.pc < 0
  · exact Or.inl ⟨_, by rw [if_pos hlow], by rw [if_pos hlow]⟩
  · rw [if_neg hlow, if_neg hlow]
    have himage := h.code m.pc.toNat
    generalize m.program.code[m.pc.toNat]? = ins? at himage ⊢
    generalize other.code[m.pc.toNat]? = image? at himage ⊢
    cases himage with
    | none => exact Or.inl ⟨_, rfl, rfl⟩
    | @some ins image himage =>
      cases m.traceCrash m.count with
      | none => exact Or.inr ⟨ins, image, himage, rfl, rfl⟩
      | some text => exact Or.inl ⟨_, rfl, rfl⟩

theorem attempt_recast (h : m.program.Mirrors other) :
    (m.recast other).attempt = m.attempt.map (recast other) := by
  have hin : (m.recast other).inBounds = m.inBounds := rfl
  unfold attempt perform
  rw [isPastEnd_recast h, hin]
  split
  · rfl
  split
  · rcases upcoming_recast h with ⟨e, hown, hother⟩ | ⟨ins, image, himage, hown, hother⟩
    · rw [hown, hother]
      rfl
    · have hnoted : Instruction.Mirrors (m.note ins).program other ins image := by
        rw [note_eq]
        exact himage
      rw [hown, hother]
      simpa only [note_recast ins image] using execute_recast hnoted
  · rfl

theorem settle_recast {x : Execution} (h : x.machine.program.Mirrors other) :
    settle (x.map (recast other)) = (settle x).map (recast other) :=
  settle_map (isPastEnd_recast h) finish_recast

end Recast

section Load

variable {program other : Program}

theorem set_load (m : Machine) {next : Machine} {setting : Setting}
    (h : m.set setting = .ok next) : (m.load other).set setting = .ok (next.load other) := by
  cases setting with
  | memorySize size =>
    rw [set] at h ⊢
    split at h
    · simp at h
    · split at h
      · simp at h
      · rename_i hsize hroom
        rw [if_neg hsize, if_neg hroom, ← Outcome.ok.inj h]
        rfl
  | _ =>
    rw [← Outcome.ok.inj h]
    rfl

theorem setAll_load {m last : Machine} {settings : List Setting}
    (h : m.setAll settings = (.ok (), last)) :
    (m.load other).setAll settings = (.ok (), last.load other) := by
  induction settings generalizing m with
  | nil =>
    obtain rfl : m = last := (Prod.mk.inj h).2
    rfl
  | cons setting settings ih =>
    obtain ⟨next, hnext, hrest⟩ := setAll_cons h
    rw [setAll, set_load m hnext]
    exact ih hrest

/-- Where a machine comes about for a program, one comes about for a program that mirrors it. -/
theorem create_load (h : program.Mirrors other) {settings : List Setting} {m : Machine}
    (hm : create (some program) settings = .ok m) :
    create (some other) settings = .ok (m.load other) := by
  obtain ⟨hfault, hall⟩ := create_eq_ok hm
  have hother : (start other).setAll settings = (.ok (), m.load other) := setAll_load hall
  simp only [create, h.fault?_eq_none hfault, hother]

end Load

end Machine

namespace Phase

open Machine

theorem step_cases (p : Phase) :
    p.step = settle p.execution ∨ ∃ m, p = .ready m ∧ m.status = .ended := by
  cases p with
  | waiting w m => exact Or.inl (resume_eq w m)
  | ready m =>
    cases hstatus : m.status with
    | running => exact Or.inl (step_of_running hstatus)
    | ended => exact Or.inr ⟨m, rfl, hstatus⟩

theorem program_next (p : Phase) : p.next.machine.program = p.machine.program := by
  rcases p.step_cases with hstep | ⟨m, rfl, hended⟩
  · rw [next, machine_ofStep, hstep, (registers_settle p.execution).1]
    exact p.leads.program
  · rw [next_of_ended hended]

theorem step_recast {other : Program} {p : Phase} (h : p.machine.program.Mirrors other) :
    (p.map (recast other)).step = p.step.map (recast other) := by
  have hexecution : (p.map (recast other)).execution = p.execution.map (recast other) := by
    cases p with
    | ready m => exact attempt_recast h
    | waiting w m => exact afterFetch_recast _
  refine step_map rfl hexecution (settle_recast ?_)
  rwa [p.leads.program]

/-- Two phases that differ in the program and in the trace only. -/
structure Mirrored (program other : Program) (p image : Phase) : Prop where
  loaded : p.machine.program = program
  mirrored : image.machine.program = other
  same : p.map (recast other) = image.map (recast other)

theorem Mirrored.agrees {program other : Program} {p image : Phase}
    (h : Mirrored program other p image) : p.machine.Agrees image.machine := by
  have hsame := congrArg Phase.machine h.same
  rw [machine_map, machine_map] at hsame
  exact agrees_of_recast hsame

/-- Phases of programs that mirror one another go in lockstep. -/
theorem lockstep_mirrored {program other : Program} (h : program.Mirrors other) :
    Lockstep (Mirrored program other) where
  step := by
    rintro p image ⟨rfl, rfl, hsame⟩
    have hstep : p.step.map (recast image.machine.program) =
        image.step.map (recast image.machine.program) := by
      rw [← step_recast h, hsame, step_recast (Program.Mirrors.refl _)]
    refine alike_of_map_eq hstep ⟨p.program_next, image.program_next, ?_⟩
    rw [← ofStep_map, ← ofStep_map, hstep]
  status hready := hready.agrees.status
  queue := by
    intro p image hphases q
    rw [hphases.agrees.channels]
  supply := by
    rintro p image held ⟨hloaded, hmirrored, hsame⟩ - q
    refine ⟨by rwa [machine_withInput], by rwa [machine_withInput], ?_⟩
    have hcommutes : ∀ p : Phase,
        (p.withInput (.queue q)).map (recast other) =
          (p.map (recast other)).withInput (.queue q) := by
      intro p
      cases p <;> rfl
    rw [hcommutes, hcommutes, hsame]

end Phase

end Sardine
