import Sardine.Proofs.Mirroring

/-! The trace that a machine keeps.
An instruction is counted, and leaves its line in a detailed trace, before it is executed; nothing
else adds to the count or to the trace. A machine takes no notice of its trace: with another one
that crashes alike, or with none if it never crashes, the machine does the same. -/
namespace Sardine

namespace Machine

/-- Nothing has been added to what a machine keeps of its execution. -/
structure SameRecord (m other : Machine) : Prop where
  count : other.count = m.count
  trace : other.trace = m.trace

theorem SameRecord.trans {m middle last : Machine} (h : m.SameRecord middle)
    (hmore : middle.SameRecord last) : m.SameRecord last :=
  ⟨hmore.count.trans h.count, hmore.trace.trans h.trace⟩

theorem sameRecord_afterFetch (m : Machine) (result : Fetched × Channels) :
    m.SameRecord (m.afterFetch result).machine := by
  obtain ⟨fetched, channels⟩ := result
  cases fetched <;> exact ⟨rfl, rfl⟩

theorem sameRecord_afterEmit (m : Machine) (result : Option Error × Channels) :
    m.SameRecord (m.afterEmit result).machine := by
  obtain ⟨error, channels⟩ := result
  cases error <;> exact ⟨rfl, rfl⟩

theorem sameRecord_execute (ins : Instruction) (m : Machine) :
    m.SameRecord (execute ins m).machine := by
  have hexecutes := executes ins m
  generalize execute ins m = x at hexecutes ⊢
  cases hexecutes with
  | fetch w _ => exact m.sameRecord_afterFetch _
  | emit bytes => exact m.sameRecord_afterEmit _
  | _ => exact ⟨rfl, rfl⟩

theorem sameRecord_settle (x : Execution) : x.machine.SameRecord (settle x).machine := by
  rcases settle_cases x with ⟨m, rfl, -, hsettle⟩ | ⟨w, m, rfl, hsettle⟩ | hended
  · rw [hsettle]
    exact ⟨rfl, rfl⟩
  · rw [hsettle]
    exact ⟨rfl, rfl⟩
  · rw [hended]
    exact ⟨rfl, rfl⟩

theorem trace_note {m : Machine} {trace : Trace} (h : m.trace = some trace)
    (hdetailed : trace.detailed = true) (ins : Instruction) :
    (m.note ins).trace =
      some { trace with messages := trace.messages.push (m.traceLine ins) } := by
  simp [note, h, hdetailed]

end Machine

namespace Phase

open Machine

def counts (p : Phase) : Bool := p.machine.count < p.next.machine.count

/-- A line shows the program counter, the instruction, the pointer and the selected cell as they are
when the phase begins. -/
def Leaves (p : Phase) (line : Bytes) : Prop :=
  ∃ ins, p.machine.instruction? = some ins ∧ line = p.machine.traceLine ins

theorem record_of_due {m : Machine} {ins : Instruction} (h : m.due? = some ins) :
    (m.note ins).SameRecord (ready m).next.machine := by
  have hrunning : (ready m).machine.status = .running := (of_due h).1
  rw [next_of_running hrunning, machine_ofStep, execution, attempt_of_due h]
  exact (sameRecord_execute ins (m.note ins)).trans (sameRecord_settle _)

theorem record_of_not_due {m : Machine} (h : m.due? = none) :
    m.SameRecord (ready m).next.machine := by
  cases hstatus : m.status with
  | ended =>
    rw [next_of_ended hstatus]
    exact ⟨rfl, rfl⟩
  | running =>
    have hsettle := sameRecord_settle m.attempt
    rw [machine_attempt_of_not_due hstatus h] at hsettle
    have hrunning : (ready m).machine.status = .running := hstatus
    rw [next_of_running hrunning, machine_ofStep]
    exact hsettle

theorem record_waiting (w : Wait) (m : Machine) : m.SameRecord (waiting w m).next.machine := by
  rw [next, machine_ofStep, step, resume_eq]
  exact (m.sameRecord_afterFetch _).trans (sameRecord_settle _)

/-- A phase counts an instruction and leaves its line, or adds nothing. -/
theorem record_cases {p : Phase} {trace : Trace} (h : p.machine.trace = some trace)
    (hdetailed : trace.detailed = true) :
    (p.counts = true ∧ p.next.machine.count = p.machine.count + 1 ∧
        ∃ line, p.Leaves line ∧
          p.next.machine.trace = some { trace with messages := trace.messages.push line }) ∨
      (p.counts = false ∧ p.machine.SameRecord p.next.machine) := by
  have hnothing : p.machine.SameRecord p.next.machine →
      p.counts = false ∧ p.machine.SameRecord p.next.machine := by
    intro hsame
    exact ⟨by simp [counts, hsame.count], hsame⟩
  cases p with
  | waiting w m => exact Or.inr (hnothing (record_waiting w m))
  | ready m =>
    cases hdue : m.due? with
    | none => exact Or.inr (hnothing (record_of_not_due hdue))
    | some ins =>
      have hrecord := record_of_due hdue
      have htrace : m.trace = some trace := h
      have hcount : (ready m).next.machine.count = m.count + 1 := by
        rw [hrecord.count, note_eq]
      have hcounts : (ready m).counts = true := by
        rw [counts, hcount]
        exact decide_eq_true (Nat.lt_succ_self m.count)
      refine Or.inl ⟨hcounts, hcount, m.traceLine ins, ?_, ?_⟩
      · exact ⟨ins, (of_due hdue).2.2, rfl⟩
      · rw [hrecord.trace, trace_note htrace hdetailed]

/-- Along all calls a detailed trace grows by one line for every instruction that is counted. -/
theorem Passes.traced {start p : Phase} {past : List Phase} (h : Passes start past p)
    {trace : Trace} (htrace : start.machine.trace = some trace)
    (hdetailed : trace.detailed = true) :
    ∃ lines : List Bytes,
      p.machine.trace = some { trace with messages := trace.messages ++ lines.toArray } ∧
        p.machine.count = start.machine.count + lines.length ∧
        List.Forall₂ Leaves (past.filter counts) lines := by
  -- The lines so far match the phases so far that count; what is put into the queue adds none.
  induction h with
  | start => exact ⟨[], by simpa using htrace, rfl, List.Forall₂.nil⟩
  | @supply past p held _ hqueue q ih =>
    obtain ⟨lines, hlines, hcount, hleaves⟩ := ih
    rw [machine_withInput]
    exact ⟨lines, hlines, hcount, hleaves⟩
  | @pass past p _ ih =>
    obtain ⟨lines, hlines, hcount, hleaves⟩ := ih
    rcases record_cases hlines hdetailed with ⟨hcounts, hmore, line, hline, hnext⟩ | ⟨hnot, hsame⟩
    · refine ⟨lines ++ [line], ?_, ?_, ?_⟩
      · rw [hnext]
        simp
      · rw [hmore, hcount, List.length_append, List.length_singleton, Nat.add_assoc]
      · rw [List.filter_append, List.filter_singleton, hcounts]
        exact List.rel_append hleaves (List.Forall₂.cons hline List.Forall₂.nil)
    · refine ⟨lines, ?_, ?_, ?_⟩
      · rw [hsame.trace, hlines]
      · rw [hsame.count, hcount]
      · rw [List.filter_append, List.filter_singleton, hnot]
        simpa using hleaves

end Phase

namespace Machine

def untraced (m : Machine) : Machine := { m with trace := none }

def Run.map (f : Machine → Machine) : Run → Run
  | settled s => settled (s.map f)
  | unfinished m => unfinished (f m)

/-- The machine with a trace of which nothing is left but its crashes. -/
def hushed (m : Machine) : Machine := m.recast m.program

theorem recast_eq_hushed {m : Machine} {program : Program} (h : m.program = program) :
    m.recast program = m.hushed := by
  rw [← h]
  rfl

/-- Machines that differ in the trace only are the same when hushed, if the traces crash alike. -/
theorem hushed_eq {m m' : Machine} (h : m.untraced = m'.untraced)
    (hcrash : ∀ count, m.traceCrash count = m'.traceCrash count) : m.hushed = m'.hushed := by
  have hsame : m.traceCrash = m'.traceCrash := funext hcrash
  simp only [untraced, Machine.mk.injEq, and_true] at h
  obtain ⟨hprogram, hpc, hptr, hmem, hstatus, hcount, hchannels⟩ := h
  simp only [hushed, recast, hprogram, hpc, hptr, hmem, hstatus, hcount, hchannels, hsame]

theorem Step.map_recast {s : Step} {program : Program} (h : s.machine.program = program) :
    s.map (recast program) = s.map hushed := by
  have hmachine := recast_eq_hushed h
  cases s with
  | returned error m => exact congrArg (Step.returned error) hmachine
  | waiting w m => exact congrArg (Step.waiting w) hmachine
  | crashed text m => exact congrArg (Step.crashed text) hmachine

theorem step_hushed (m : Machine) : m.hushed.step = m.step.map hushed := by
  have hstep := Phase.step_recast (p := .ready m) (Program.Mirrors.refl m.program)
  have hprogram := Phase.program_next (.ready m)
  rw [Phase.next, Phase.machine_ofStep] at hprogram
  exact hstep.trans (Step.map_recast hprogram)

theorem run_hushed (fuel : Nat) (m : Machine) :
    run fuel m.hushed = (run fuel m).map hushed := by
  induction fuel generalizing m with
  | zero => rfl
  | succ fuel ih =>
    rw [run, run, step_hushed]
    cases m.step with
    | returned error after =>
      cases error with
      | some e => rfl
      | none =>
        have hstatus : after.hushed.status = after.status := rfl
        simp only [Step.map, hstatus]
        split
        · rfl
        · exact ih after
    | waiting w after => rfl
    | crashed text after => rfl

theorem count_set {m next : Machine} {setting : Setting} (h : m.set setting = .ok next)
    (hm : m.count = 0) : next.count = 0 := by
  cases setting with
  | memorySize size =>
    obtain ⟨-, rfl⟩ := set_memorySize h
    exact hm
  | _ => rwa [← Outcome.ok.inj h]

theorem count_create {program : Program} {settings : List Setting} {m : Machine}
    (h : create (some program) settings = .ok m) : m.count = 0 :=
  setAll_keeps count_set (create_eq_ok h).2 rfl

end Machine

namespace Session

open Machine

/-- All calls come back alike in two sessions. Before each of their phases and after the last call
the two machines have the same registers, memory, status and count, and have done the same on their
channels. -/
structure Twins (s other : Session) (actions : List Action) : Prop where
  replies : (s.actAll actions).1 = (other.actAll actions).1
  suspended : (s.actAll actions).2.suspended = (other.actAll actions).2.suspended
  last : (s.actAll actions).2.machine.Agrees (other.actAll actions).2.machine
  phases : List.Forall₂ (fun p p' : Phase => p.machine.Agrees p'.machine)
    (s.history actions) (other.history actions)

theorem twins_of_untraced {m m' : Machine} (h : m.untraced = m'.untraced)
    (hcrash : ∀ count, m.traceCrash count = m'.traceCrash count)
    (suspended : Option (Activity × Wait)) (actions : List Action) :
    Twins { machine := m, suspended } { machine := m', suspended } actions := by
  have hprogram : m'.program = m.program := (congrArg Machine.program h).symm
  have hrecast : m.recast m.program = m'.recast m.program := by
    rw [recast_eq_hushed rfl, recast_eq_hushed hprogram, hushed_eq h hcrash]
  have hphases : Phase.Mirrored m.program m.program (phase { machine := m, suspended })
      (phase { machine := m', suspended }) := by
    refine ⟨by rw [machine_phase], by rw [machine_phase, hprogram], ?_⟩
    match suspended with
    | none => exact congrArg Phase.ready hrecast
    | some (_, w) => exact congrArg (Phase.waiting w) hrecast
  obtain ⟨hreplies, hhistory, hsessions⟩ :=
    (Phase.lockstep_mirrored (Program.Mirrors.refl m.program)).actAll ⟨hphases, rfl⟩ actions
  have hlast := hsessions.phase.agrees
  rw [machine_phase, machine_phase] at hlast
  exact ⟨hreplies, hsessions.suspended, hlast, hhistory.imp fun _ _ hpair => hpair.agrees⟩

theorem traced_actAll {program : Program} {settings : List Setting} {m : Machine} {trace : Trace}
    (hm : create (some program) settings = .ok m) (htrace : m.trace = some trace)
    (hdetailed : trace.detailed = true) (actions : List Action) :
    let start : Session := { machine := m }
    ∃ lines : List Bytes,
      (start.actAll actions).2.machine.trace =
          some { trace with messages := trace.messages ++ lines.toArray } ∧
        (start.actAll actions).2.machine.count = lines.length ∧
        List.Forall₂ Phase.Leaves ((start.history actions).filter Phase.counts) lines := by
  intro start
  obtain ⟨lines, hlines, hcount, hleaves⟩ :=
    (start.passes_actAll actions).traced htrace hdetailed
  have hzero : start.phase.machine.count = 0 := count_create hm
  rw [machine_phase] at hlines
  rw [machine_phase, hzero, Nat.zero_add] at hcount
  exact ⟨lines, hlines, hcount, hleaves⟩

end Session

end Sardine
