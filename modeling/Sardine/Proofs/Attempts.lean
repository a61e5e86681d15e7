import Sardine.Proofs.Reception
import Sardine.Proofs.Shutting

/-! What a step attempts, and how it comes out.
A step of a running machine executes the instruction at the program counter and then settles what
has come of it. An instruction that has to wait goes on with the queue as it finds it then. Whatever
it does, it only writes to its output and flushes it, and unless it is through it changes neither
the registers nor the memory. -/
namespace Sardine

namespace Channels

theorem worked_receive (w : Wait) (channels : Channels) :
    channels.output.Worked (receive w channels).2.output := by
  have hflushed : ∀ {channels : Channels} {result : Outcome Unit} {output : Output},
      channels.output.flush = (result, output) → channels.output.Worked output :=
    fun {channels} _ _ heq => by
      have hworked := channels.output.worked_flush
      rwa [heq] at hworked
  fun_induction Channels.receive w channels with
  | case6 w channels b input _ more _ output hflush ih => exact (hflushed hflush).trans ih
  | case7 w channels b input _ more _ e output hflush => exact hflushed hflush
  | case8 w channels b input _ more _ text output hflush => exact hflushed hflush
  | _ => exact Output.Worked.refl _

theorem worked_fetch (w : Wait) (channels : Channels) :
    channels.output.Worked (fetch w channels).2.output := by
  have hflushed := channels.output.worked_flush
  unfold fetch
  split
  · exact Output.Worked.refl _
  · split
    all_goals
      rename_i output heq
      rw [heq] at hflushed
    · exact hflushed.trans (worked_receive w { channels with output })
    · exact hflushed
    · exact hflushed

theorem worked_emit (bytes : Bytes) (channels : Channels) :
    channels.output.Worked (emit bytes channels).2.output := by
  have hwritten := channels.output.worked_write bytes
  unfold emit
  split
  · exact Output.Worked.refl _
  · split
    all_goals
      rename_i heq
      rw [heq] at hwritten
      exact hwritten

end Channels

namespace Machine

def Execution.machine : Execution → Machine
  | next m => m
  | halt m => m
  | failed _ m => m
  | waiting _ m => m

/-- What an execution has to do with the machine from which it starts. -/
structure Leads (m : Machine) (x : Execution) : Prop where
  program : x.machine.program = m.program
  status : x.machine.status = m.status
  output : m.channels.output.Worked x.machine.channels.output
  kept : (∀ after, x ≠ .next after) →
    x.machine.pc = m.pc ∧ x.machine.ptr = m.ptr ∧ x.machine.mem = m.mem

section Leads

variable (m : Machine)

theorem leads_afterFetch {result : Fetched × Channels}
    (h : m.channels.output.Worked result.2.output) : m.Leads (m.afterFetch result) := by
  obtain ⟨fetched, channels⟩ := result
  cases fetched with
  | value v => exact ⟨rfl, rfl, h, fun hnot => absurd rfl (hnot _)⟩
  | failed e => exact ⟨rfl, rfl, h, fun _ => ⟨rfl, rfl, rfl⟩⟩
  | waiting w => exact ⟨rfl, rfl, h, fun _ => ⟨rfl, rfl, rfl⟩⟩

theorem leads_afterEmit {result : Option Error × Channels}
    (h : m.channels.output.Worked result.2.output) : m.Leads (m.afterEmit result) := by
  obtain ⟨error, channels⟩ := result
  cases error with
  | none => exact ⟨rfl, rfl, h, fun hnot => absurd rfl (hnot _)⟩
  | some e => exact ⟨rfl, rfl, h, fun _ => ⟨rfl, rfl, rfl⟩⟩

theorem leads_execute (ins : Instruction) : m.Leads (execute ins m) := by
  have hexecutes := executes ins m
  generalize execute ins m = x at hexecutes ⊢
  cases hexecutes with
  | fetch w _ => exact m.leads_afterFetch (Channels.worked_fetch w m.channels)
  | emit bytes => exact m.leads_afterEmit (Channels.worked_emit bytes m.channels)
  | exit | divisionByZero | unassigned =>
    exact ⟨rfl, rfl, Output.Worked.refl _, fun _ => ⟨rfl, rfl, rfl⟩⟩
  | _ => exact ⟨rfl, rfl, Output.Worked.refl _, fun hnot => absurd rfl (hnot _)⟩

theorem leads_perform : m.Leads m.perform := by
  have hstay : ∀ e, m.Leads (.failed e m) := fun e =>
    ⟨rfl, rfl, Output.Worked.refl _, fun _ => ⟨rfl, rfl, rfl⟩⟩
  unfold perform
  split
  · split
    · rename_i ins _
      have h := (m.note ins).leads_execute ins
      rw [note_eq] at h ⊢
      exact ⟨h.program, h.status, h.output, h.kept⟩
    · exact hstay _
  · exact hstay _

end Leads

/-- What a step of a running machine executes: nothing if the program counter is past the end. -/
def attempt (m : Machine) : Execution := if m.isPastEnd then .next m else m.perform

theorem leads_attempt (m : Machine) : m.Leads m.attempt := by
  unfold attempt
  split
  · exact ⟨rfl, rfl, Output.Worked.refl _, fun hnot => absurd rfl (hnot _)⟩
  · exact m.leads_perform

theorem step_of_running {m : Machine} (h : m.status = .running) : m.step = settle m.attempt := by
  unfold step attempt
  rw [h]
  by_cases hpast : m.isPastEnd = true
  · simp [hpast, settle]
  · simp [hpast]

theorem step_of_ended {m : Machine} (h : m.status = .ended) :
    m.step = .returned (some ⟨.ended, []⟩) m := by
  simp [step, h]

def goOn (w : Wait) (m : Machine) : Execution := m.afterFetch (Channels.receive w m.channels)

theorem resume_eq (w : Wait) (m : Machine) : Machine.resume w m = settle (m.goOn w) := rfl

theorem leads_goOn (w : Wait) (m : Machine) : m.Leads (m.goOn w) :=
  m.leads_afterFetch (Channels.worked_receive w m.channels)

def shutDown (m : Machine) : Machine :=
  { m with
    status := .ended
    channels := { m.channels with output := m.channels.output.shut } }

/-- The error with which the program ends: that of the instruction, if there is one, and else that
of shutting the output. -/
def firstError (m : Machine) (error : Option Error) : Option Error :=
  (error.map m.atPc).or m.channels.output.shutError?

/-- The executions with which the program ends, each with its error. -/
inductive Execution.Ends : Execution → Option Error → Machine → Prop
  | past {m : Machine} (h : m.isPastEnd = true) : Ends (.next m) none m
  | exit (m : Machine) : Ends (.halt m) none m
  | failed (e : Error) (m : Machine) : Ends (.failed e m) (some e) m

theorem Execution.Ends.machine_eq {x : Execution} {error : Option Error} {last : Machine}
    (h : x.Ends error last) : x.machine = last := by
  cases h <;> rfl

inductive Execution.Settles : Execution → Step → Prop
  | goes {m : Machine} (h : m.isPastEnd = false) : Settles (.next m) (.returned none m)
  | waits (w : Wait) (m : Machine) : Settles (.waiting w m) (.waiting w m)
  | ends {x : Execution} {error : Option Error} {last : Machine} (h : x.Ends error last)
      (hshuts : last.channels.output.Shuts) :
      Settles x (.returned (last.firstError error) last.shutDown)
  | crashes {x : Execution} {error : Option Error} {last : Machine} (h : x.Ends error last)
      (hcrash : ¬ last.channels.output.Shuts) (text : Bytes) (after : Machine) :
      Settles x (.crashed text after)

theorem finish_of_shuts {m : Machine} (h : m.channels.output.Shuts) (error : Option Error) :
    m.finish error = .returned (m.firstError error) m.shutDown := by
  unfold finish firstError
  rw [Channels.shut_eq h]
  cases error with
  | some e => cases m.channels.output.shutError? <;> rfl
  | none => cases m.channels.output.shutError? <;> rfl

theorem Execution.Ends.settle_of_shuts {x : Execution} {error : Option Error} {last : Machine}
    (h : x.Ends error last) (hshuts : last.channels.output.Shuts) :
    settle x = .returned (last.firstError error) last.shutDown := by
  rw [← finish_of_shuts hshuts]
  cases h with
  | past hpast => simp [settle, hpast]
  | exit => rfl
  | failed => rfl

theorem Execution.Ends.settles {x : Execution} {error : Option Error} {last : Machine}
    (h : x.Ends error last) : x.Settles (last.finish error) := by
  by_cases hshuts : last.channels.output.Shuts
  · rw [finish_of_shuts hshuts]
    exact Settles.ends h hshuts
  · obtain ⟨text, after, hcrash⟩ := Channels.exists_crash_of_not_shuts hshuts
    have hfinish : last.finish error =
        .crashed text { last with status := .ended, channels := after } := by
      simp [finish, hcrash]
    rw [hfinish]
    exact Settles.crashes h hshuts _ _

theorem settles (x : Execution) : x.Settles (settle x) := by
  cases x with
  | next m =>
    cases hpast : m.isPastEnd with
    | true =>
      simp only [settle, hpast, if_true]
      exact (Execution.Ends.past hpast).settles
    | false =>
      simp only [settle, hpast]
      exact Execution.Settles.goes hpast
  | halt m => exact (Execution.Ends.exit m).settles
  | failed e m => exact (Execution.Ends.failed e m).settles
  | waiting w m => exact Execution.Settles.waits w m

end Machine

end Sardine
