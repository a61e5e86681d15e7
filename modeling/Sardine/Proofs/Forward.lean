import Sardine.Proofs.Ending
import Sardine.Proofs.Tracing
import Mathlib.Data.List.Perm.Subperm

/-! Programs that only jump forward.
A step that leaves such a program running has brought the program counter closer to the end. So,
with an input that never has to be waited for, the program ends, and on the way it comes to no
instruction twice. -/
namespace Sardine

def Program.Forward (program : Program) : Prop :=
  ∀ (p : Nat) (h : p < program.code.size), program.code[p].op.isJump = true →
    (p : Int) < program.target program.code[p].label

instance (program : Program) : Decidable program.Forward :=
  inferInstanceAs (Decidable (∀ (p : Nat) (h : p < program.code.size),
    program.code[p].op.isJump = true → (p : Int) < program.target program.code[p].label))

theorem Script.next_ne_pending (script : Script) : (next script).1 ≠ .pending := by
  fun_induction next script with
  | case3 _ ih => exact ih
  | _ => simp

namespace Input

def asked : Nat → Input → Input
  | 0, input => input
  | k + 1, input => asked k input.next.2

def NeverPends (input : Input) : Prop := ∀ k, (asked k input).next.1 ≠ .pending

theorem NeverPends.next {input after : Input} {delivery : Delivery} (h : input.NeverPends)
    (hnext : input.next = (delivery, after)) : delivery ≠ .pending ∧ after.NeverPends := by
  constructor
  · have hfirst := h 0
    rwa [asked, hnext] at hfirst
  · intro k
    have hlater := h (k + 1)
    rwa [asked, hnext] at hlater

def isOpen : Input → Bool
  | queue q => !q.closed
  | _ => false

theorem isOpen_next (input : Input) : input.next.2.isOpen = input.isOpen := by
  cases input with
  | bytes rest => cases rest <;> rfl
  | queue q =>
    obtain ⟨held, closed⟩ := q
    cases held <;> cases closed <;> rfl
  | _ => rfl

theorem next_ne_pending {input : Input} (h : input.isOpen = false) : input.next.1 ≠ .pending := by
  cases input with
  | absent => simp [next]
  | bytes rest => cases rest <;> simp [next]
  | direct script => exact Script.next_ne_pending script
  | buffered reader =>
    have hreader : reader.next.1 ≠ .pending := by
      unfold BufferedReader.next
      split
      · simp
      · simp
      · split <;> simp
    exact hreader
  | queue q =>
    obtain ⟨held, closed⟩ := q
    obtain rfl : closed = true := by simpa [isOpen] using h
    cases held <;> simp [next, Queue.next]

theorem asked_queue (held : Bytes) (closed : Bool) :
    asked held.length (.queue ⟨held, closed⟩) = .queue ⟨[], closed⟩ := by
  induction held with
  | nil => rfl
  | cons b held ih => exact ih

theorem neverPends_iff {input : Input} : input.NeverPends ↔ input.isOpen = false := by
  constructor
  · intro h
    cases input with
    | queue q =>
      obtain ⟨held, closed⟩ := q
      cases closed with
      | true => rfl
      | false =>
        have hempty := h held.length
        rw [asked_queue] at hempty
        exact absurd rfl hempty
    | _ => rfl
  · intro h k
    induction k generalizing input with
    | zero => exact next_ne_pending h
    | succ k ih => exact ih ((isOpen_next input).trans h)

end Input

namespace Channels

/-- A reading that is through with an input that still has an answer to everything. -/
structure Answered (result : Fetched × Channels) : Prop where
  through : ∀ w, result.1 ≠ .waiting w
  input : result.2.input.NeverPends

section Answered

variable {channels : Channels} (h : channels.input.NeverPends) (w : Wait)
include h

theorem receive_answered : Answered (receive w channels) := by
  fun_induction receive w channels with
  | case1 w channels input hnext => exact absurd rfl (h.next hnext).1
  | case2 w channels text input hnext => exact ⟨by simp, (h.next hnext).2⟩
  | case3 w channels input hnext => exact ⟨ofResult_ne_waiting _, (h.next hnext).2⟩
  | case4 w channels stop input hstop hnext => exact ⟨by simp, (h.next hnext).2⟩
  | case5 w channels b input hnext result haccept =>
    exact ⟨ofResult_ne_waiting _, (h.next hnext).2⟩
  | case6 w channels b input hnext more haccept output hflush ih => exact ih (h.next hnext).2
  | case7 w channels b input hnext => exact ⟨by simp, (h.next hnext).2⟩
  | case8 w channels b input hnext => exact ⟨by simp, (h.next hnext).2⟩

theorem fetch_answered : Answered (fetch w channels) := by
  unfold fetch
  split
  · exact ⟨ofResult_ne_waiting _, h⟩
  · split
    · rename_i output _
      have hflushed : ({ channels with output } : Channels).input.NeverPends := h
      exact receive_answered hflushed w
    · exact ⟨by simp, h⟩
    · exact ⟨by simp, h⟩

end Answered

end Channels

namespace Machine

theorem attempt_answered {m : Machine} (h : m.channels.input.NeverPends) :
    (∀ w after, m.attempt ≠ .waiting w after) ∧
      m.attempt.machine.channels.input.NeverPends := by
  unfold attempt
  split
  · exact ⟨by simp, h⟩
  · rcases perform_input m with ⟨hthrough, hsame⟩ | ⟨ins, w, hread⟩
    · have hself := hsame m.channels.input
      rw [withInput_of_eq rfl] at hself
      refine ⟨hthrough, ?_⟩
      rw [hself]
      cases m.perform <;> exact h
    · have hself := hread m.channels.input
      rw [withInput_of_eq rfl] at hself
      rw [hself]
      have hanswered : Channels.Answered (Channels.fetch w m.channels) :=
        Channels.fetch_answered h w
      generalize Channels.fetch w ⟨m.channels.input, m.channels.output⟩ = result at hanswered ⊢
      obtain ⟨fetched, channels⟩ := result
      cases fetched with
      | waiting held => exact absurd rfl (hanswered.through held)
      | _ => exact ⟨by simp [afterFetch], hanswered.input⟩

theorem counter_of_next {ins : Instruction} {m next : Machine} (h : execute ins m = .next next) :
    next.pc = m.pc + 1 ∨ ins.op.isJump = true ∧ next.pc = m.program.target ins.label := by
  have hexecutes := executes ins m
  generalize execute ins m = x at h hexecutes
  cases hexecutes with
  | pass | store | point =>
    obtain rfl := Execution.next.inj h
    exact Or.inl rfl
  | jump hjump =>
    obtain rfl := Execution.next.inj h
    exact Or.inr ⟨hjump, rfl⟩
  | fetch w _ =>
    generalize Channels.fetch w m.channels = result at h
    obtain ⟨fetched, channels⟩ := result
    cases fetched with
    | value v =>
      obtain rfl := Execution.next.inj h
      exact Or.inl rfl
    | _ => simp [afterFetch] at h
  | emit bytes =>
    generalize Channels.emit bytes m.channels = result at h
    obtain ⟨error, channels⟩ := result
    cases error with
    | none =>
      obtain rfl := Execution.next.inj h
      exact Or.inl rfl
    | some e => simp [afterEmit] at h
  | _ => simp at h

/-- A running machine in a program, whose input is never waited for and whose output can be shut. -/
structure Onward (program : Program) (m : Machine) : Prop where
  loaded : m.program = program
  counter : 0 ≤ m.pc ∧ m.pc ≤ program.size
  running : m.status = .running
  input : m.channels.input.NeverPends
  output : m.channels.output.AlwaysShuts

/-- A step gets on, or ends the program. -/
inductive Step.GetsOn (program : Program) (m : Machine) : Step → Prop
  | goes {next : Machine} (h : next.Onward program) (hcounter : m.pc < next.pc) :
      GetsOn program m (.returned none next)
  | ends (error : Option Error) {last : Machine} (h : last.status = .ended) :
      GetsOn program m (.returned error last)

section Onward

variable {program : Program} {m : Machine} (h : m.Onward program)
include h

theorem Onward.pc_lt_of_next (hforward : program.Forward) {next : Machine}
    (hnext : m.attempt = .next next) (hpast : next.isPastEnd = false) : m.pc < next.pc := by
  cases hdue : m.due? with
  | none =>
    rcases attempt_of_not_due h.running hdue with ⟨hend, heq⟩ | ⟨-, e, heq, -⟩
    · obtain rfl := Execution.next.inj (heq.symm.trans hnext)
      simp [hend] at hpast
    · simp [heq] at hnext
  | some ins =>
    rw [attempt_of_due hdue] at hnext
    have hcounter := counter_of_next hnext
    rw [note_eq] at hcounter
    rcases hcounter with hpc | ⟨hjump, hpc⟩
    · rw [hpc]
      exact Int.lt_succ m.pc
    · obtain ⟨hlow, -, -⟩ := pc_of_instruction (of_due hdue).2.2
      have hhere := (of_due hdue).2.2
      rw [instruction?, if_neg (by omega), h.loaded] at hhere
      obtain ⟨hlt, rfl⟩ := Array.getElem?_eq_some_iff.mp hhere
      have htarget := hforward m.pc.toNat hlt hjump
      rw [hpc, h.loaded]
      omega

theorem Onward.step (hlinked : program.Linked) (hforward : program.Forward) :
    m.step.GetsOn program m := by
  have hrange : (Phase.ready m).InRange program m.mem.size :=
    ⟨⟨h.loaded, h.counter, rfl⟩, by simp⟩
  have hplaced : m.attempt.machine.Placed program m.mem.size :=
    hrange.placed_execution hlinked h.running
  obtain ⟨hthrough, hinput⟩ := attempt_answered h.input
  have hworking := m.leads_attempt.working h.running (Output.Worked.refl _)
  have hcounter : ∀ next, m.attempt = .next next → next.isPastEnd = false → m.pc < next.pc :=
    fun _ => h.pc_lt_of_next hforward
  rw [step_of_running h.running]
  have hsettles := settles m.attempt
  generalize m.attempt = x at hplaced hthrough hinput hworking hcounter hsettles ⊢
  generalize settle x = s at hsettles ⊢
  cases hsettles with
  | waits w after => exact absurd rfl (hthrough w after)
  | ends _ _ => exact Step.GetsOn.ends _ rfl
  | crashes hends hcrash => exact absurd (h.output _ (hworking.ends hends)) hcrash
  | @goes next hpast =>
    have houtput : next.channels.output.AlwaysShuts := fun after hafter =>
      h.output after (hworking.output.trans hafter)
    exact Step.GetsOn.goes ⟨hplaced.loaded, hplaced.counter, hworking.status, hinput, houtput⟩
      (hcounter next rfl hpast)

end Onward

theorem stepped_succ (m : Machine) (k : Nat) :
    m.stepped (k + 1) = (m.stepped k).step.machine := by
  induction k generalizing m with
  | zero => rfl
  | succ k ih => exact ih m.step.machine

/-- The addresses of the instructions to which so many steps come, one after the other. -/
def executed : Nat → Machine → List Int
  | 0, _ => []
  | k + 1, m => (m.due?.map fun _ => m.pc).toList ++ executed k m.step.machine

theorem count_stepped (m : Machine) (k : Nat) :
    (m.stepped k).count = m.count + (m.executed k).length := by
  induction k generalizing m with
  | zero => rfl
  | succ k ih =>
    have hnext : (Phase.ready m).next.machine = m.step.machine := Phase.machine_ofStep m.step
    rw [stepped, ih, executed, List.length_append]
    cases hdue : m.due? with
    | none =>
      have hrecord := Phase.record_of_not_due hdue
      rw [← hnext, hrecord.count]
      simp
    | some ins =>
      have hrecord := Phase.record_of_due hdue
      rw [← hnext, hrecord.count, note_eq]
      simp
      omega

theorem follow_of_running {next : Machine} (h : next.status = .running) (fuel : Nat) :
    follow fuel (.returned none next) = run fuel next := by
  simp [follow, Step.goesOn, Step.machine, h]

section Ended

variable {m : Machine} (h : m.status = .ended)
include h

theorem stepped_of_ended (k : Nat) : m.stepped k = m := by
  induction k with
  | zero => rfl
  | succ k ih =>
    rw [stepped, step_of_ended h]
    exact ih

theorem executed_of_ended (k : Nat) : m.executed k = [] := by
  have hdue : m.due? = none := by simp [due?, h]
  induction k with
  | zero => rfl
  | succ k ih =>
    rw [executed, hdue, step_of_ended h]
    exact ih

theorem follow_of_ended (error : Option Error) (fuel : Nat) :
    follow fuel (.returned error m) = .settled (.returned error m) := by
  cases error <;> simp [follow, Step.goesOn, h]

end Ended

section Run

variable {program : Program} (hlinked : program.Linked) (hforward : program.Forward)
  {m : Machine} (h : m.Onward program)
include hlinked hforward h

/-- A run needs no more steps than there are places up to the end, by induction on their number. -/
theorem Onward.run {fuel : Nat} (hfuel : program.size < m.pc + fuel) :
    ∃ error, Machine.run fuel m = .settled (.returned error (m.stepped fuel)) ∧
      (m.stepped fuel).status = .ended := by
  induction fuel generalizing m with
  | zero =>
    have hinside := h.counter.2
    omega
  | succ fuel ih =>
    have hstep := h.step hlinked hforward
    rw [run_succ, stepped]
    generalize m.step = s at hstep ⊢
    cases hstep with
    | goes hnext hcounter =>
      rw [follow_of_running hnext.running]
      exact ih hnext (by omega)
    | @ends error last hended =>
      refine ⟨error, ?_, ?_⟩
      · rw [follow_of_ended hended, Step.machine, stepped_of_ended hended]
      · rw [Step.machine, stepped_of_ended hended]
        exact hended

theorem Onward.step_stepped (k : Nat) : (m.stepped k).step.GetsOn program (m.stepped k) := by
  induction k generalizing m with
  | zero => exact h.step hlinked hforward
  | succ k ih =>
    have hstep := h.step hlinked hforward
    rw [stepped]
    generalize m.step = s at hstep ⊢
    cases hstep with
    | goes hnext _ => exact ih hnext
    | @ends _ last hended =>
      rw [Step.machine, stepped_of_ended hended, step_of_ended hended]
      exact Step.GetsOn.ends _ hended

theorem Onward.pc_stepped_lt {k : Nat} (hrunning : (m.stepped (k + 1)).status = .running) :
    (m.stepped k).pc < (m.stepped (k + 1)).pc := by
  have hstep := h.step_stepped hlinked hforward k
  rw [stepped_succ] at hrunning ⊢
  generalize (m.stepped k).step = s at hstep hrunning ⊢
  cases hstep with
  | goes _ hcounter => exact hcounter
  | ends _ hended => exact absurd (hended.symm.trans hrunning) (by simp)

/-- The addresses only grow, so that none comes twice. -/
theorem Onward.executed (k : Nat) :
    (m.executed k).Pairwise (· < ·) ∧ ∀ a ∈ m.executed k, m.pc ≤ a ∧ a < program.size := by
  induction k generalizing m with
  | zero => exact ⟨List.Pairwise.nil, by simp [Machine.executed]⟩
  | succ k ih =>
    have hlater : (m.step.machine.executed k).Pairwise (· < ·) ∧
        ∀ a ∈ m.step.machine.executed k, m.pc < a ∧ a < program.size := by
      have hstep := h.step hlinked hforward
      generalize m.step = s at hstep ⊢
      cases hstep with
      | goes hnext hcounter =>
        obtain ⟨hgrow, hbounds⟩ := ih hnext
        exact ⟨hgrow, fun a ha =>
          ⟨Int.lt_of_lt_of_le hcounter (hbounds a ha).1, (hbounds a ha).2⟩⟩
      | ends _ hended =>
        rw [Step.machine, executed_of_ended hended]
        exact ⟨List.Pairwise.nil, by simp⟩
    obtain ⟨hgrow, hbounds⟩ := hlater
    rw [Machine.executed]
    cases hdue : m.due? with
    | none => exact ⟨hgrow, fun a ha => ⟨Int.le_of_lt (hbounds a ha).1, (hbounds a ha).2⟩⟩
    | some ins =>
      have hinside := (pc_of_instruction (of_due hdue).2.2).2.1
      rw [h.loaded] at hinside
      refine ⟨List.pairwise_cons.mpr ⟨fun a ha => (hbounds a ha).1, hgrow⟩, fun a ha => ?_⟩
      rcases List.mem_cons.mp ha with rfl | ha
      · exact ⟨Int.le_refl _, hinside⟩
      · exact ⟨Int.le_of_lt (hbounds a ha).1, (hbounds a ha).2⟩

theorem Onward.nodup_executed (k : Nat) : (m.executed k).Nodup :=
  (h.executed hlinked hforward k).1.imp fun hlt => Int.ne_of_lt hlt

theorem Onward.subperm_executed (k : Nat) :
    (m.executed k).Subperm ((List.range program.size).map Int.ofNat) := by
  refine (h.nodup_executed hlinked hforward k).subperm fun a ha => ?_
  have hlow := h.counter.1
  obtain ⟨hpc, hinside⟩ := (h.executed hlinked hforward k).2 a ha
  exact List.mem_map.mpr ⟨a.toNat, List.mem_range.mpr (by omega), Int.toNat_of_nonneg (by omega)⟩

end Run

end Machine

/-- A program all of whose jumps lead forward ends, whatever its memory holds, if its input is never
waited for and its output can be shut. As long as it runs, every step increases the program counter;
no instruction is executed twice; and the number of those executed, which is the count at the end,
is at most that of all instructions, and less unless all of them are executed. -/
theorem forward_program_ends {program : Program} {settings : List Machine.Setting} {m : Machine}
    (hcreate : Machine.create (some program) settings = .ok m) (hforward : program.Forward)
    (mem : Array Cell) (hinput : m.channels.input.NeverPends)
    (houtput : m.channels.output.AlwaysShuts) :
    let start : Machine := { m with mem }
    let last := start.stepped (program.size + 1)
    ((∃ error, Machine.run (program.size + 1) start = .settled (.returned error last)) ∧
        last.status = .ended) ∧
      (∀ k, (start.stepped (k + 1)).status = .running →
        (start.stepped k).pc < (start.stepped (k + 1)).pc) ∧
      (∀ k, (start.executed k).Nodup) ∧
      last.count = (start.executed (program.size + 1)).length ∧ last.count ≤ program.size ∧
      (last.count = program.size →
        ∀ a : Nat, a < program.size → (a : Int) ∈ start.executed (program.size + 1)) := by
  intro start last
  obtain ⟨hlinked, hstart⟩ := Machine.atStart_create hcreate
  have hpc : start.pc = 0 := hstart.counter
  have hrunning := Machine.status_create hcreate
  have hon : start.Onward program := ⟨hstart.loaded, by omega, hrunning, hinput, houtput⟩
  have hfuel : (program.size : Int) < start.pc + (program.size + 1 : Nat) := by omega
  obtain ⟨error, hrun, hended⟩ := hon.run hlinked hforward hfuel
  have hpart := hon.subperm_executed hlinked hforward (program.size + 1)
  have hall : ((List.range program.size).map Int.ofNat).length = program.size := by simp
  have hcount : last.count = (start.executed (program.size + 1)).length := by
    have hfirst := Machine.count_create hcreate
    have hcounted : last.count = m.count + _ := start.count_stepped (program.size + 1)
    rwa [hfirst, Nat.zero_add] at hcounted
  refine ⟨⟨⟨error, hrun⟩, hended⟩, fun k => hon.pc_stepped_lt hlinked hforward,
    hon.nodup_executed hlinked hforward, hcount, ?_, fun hfull a ha => ?_⟩
  · have hlength := hpart.length_le
    omega
  · have hperm := hpart.perm_of_length_le (by omega)
    exact hperm.mem_iff.mpr (List.mem_map.mpr ⟨a, List.mem_range.mpr ha, rfl⟩)

/-- A jump over an instruction that is taken with one memory and not with another, before a number
is read and written. -/
theorem forward_program_ends_skipping :
    let program : Program :=
      ⟨#[{ op := .jumpIfZero, label := utf8 "a" }, { op := .increment },
          { op := .nop, label := utf8 "a" }, { op := .getNumber }, { op := .putNumber }],
        [(utf8 "a", 2)]⟩
    let m : Machine :=
      { program
        mem := #[0, 0]
        channels :=
          { input := .queue ⟨utf8 "12\n", true⟩
            output := .direct { canFlush := true, canClose := true } } }
    let other : Machine := { m with mem := #[5] }
    program.Forward ∧ m.channels.input.NeverPends ∧ m.channels.output.AlwaysShuts ∧
      (∃ error, m.run 6 = .settled (.returned error (m.stepped 6))) ∧
      (m.executed 6).Nodup ∧ m.executed 6 = [0, 2, 3, 4] ∧ (m.stepped 6).count = 4 ∧
      (∃ error, other.run 6 = .settled (.returned error (other.stepped 6))) ∧
      (other.executed 6).Nodup ∧ other.executed 6 = [0, 1, 2, 3, 4] ∧
      (other.stepped 6).count = 5 := by
  intro program m other
  have hcreate : Machine.create (some program) [.memorySize 2, .input m.channels.input,
      .output m.channels.output] = .ok m := rfl
  have hforward : program.Forward := by decide +kernel
  have hinput : m.channels.input.NeverPends := Input.neverPends_iff.mpr rfl
  have hcalm : m.channels.output.Calm := Device.calm_of_faults rfl
  have houtput := hcalm.alwaysShuts
  obtain ⟨⟨hruns, -⟩, -, hnodup, -⟩ :=
    forward_program_ends hcreate hforward m.mem hinput houtput
  obtain ⟨⟨hotherRuns, -⟩, -, hotherNodup, -⟩ :=
    forward_program_ends hcreate hforward other.mem hinput houtput
  exact ⟨hforward, hinput, houtput, hruns, hnodup 6, by decide +kernel, by decide +kernel,
    hotherRuns, hotherNodup 6, by decide +kernel, by decide +kernel⟩

end Sardine
