import Sardine.Proofs.Registers

/-! Programs whose jumps lead into them stay in range.
Whatever such a program holds besides, the program counter never leaves it by more than one place,
the memory keeps its size, and every access to the code and to the memory is in range. So an
instruction crashes only if one of its channels or the trace does. -/
namespace Sardine

/-- Every jump leads to an instruction. -/
def Program.Linked (program : Program) : Prop :=
  ∀ ins ∈ program.code, ins.op.isJump = true →
    0 ≤ program.target ins.label ∧ program.target ins.label < program.size

theorem Program.linked_of_fault? {program : Program} (h : program.fault? = none) :
    program.Linked := by
  intro ins hins hjump
  obtain ⟨pc, hpc⟩ := List.mem_iff_getElem?.mp (Array.mem_toList_iff.mpr hins)
  have hentry : (ins, pc) ∈ program.code.toList.zipIdx := List.mk_mem_zipIdx_iff_getElem?.mpr hpc
  have hnone := List.findSome?_eq_none_iff.mp h (ins, pc) hentry
  rw [Program.faultAt?, if_pos hjump] at hnone
  cases haddress : program.labels.address? ins.label with
  | none => simp [haddress] at hnone
  | some address =>
    have hinside : ¬ (address < 0 ∨ (program.size : Int) ≤ address) := by
      simpa [haddress] using hnone
    rw [Program.target, haddress, Option.getD_some]
    omega

namespace Machine

section Checked

variable (m : Machine)

def cellAt? (address : Int) : Option Cell :=
  if address < 0 then none else m.mem[address.toNat]?

/-- An operand. The memory is accessed only if the address is below its end. -/
def operand? (k : Nat) : Option Cell :=
  if m.ptr + k < m.mem.size then m.cellAt? (m.ptr + k) else some 0

def store? (v : Cell) : Option Execution :=
  (m.cellAt? m.ptr).map fun _ => .next (m.store v).advance

def alter? (f : Cell → Cell) : Option Execution :=
  (m.cellAt? m.ptr).bind fun v => m.store? (f v)

def combine? (f : Cell → Cell → Option Execution) : Option Execution :=
  (m.operand? 1).bind fun a => (m.operand? 2).bind fun b => f a b

def afterFetch? : Fetched × Channels → Option Execution
  | (.value v, channels) => ({ m with channels } : Machine).store? v
  | other => some (m.afterFetch other)

end Checked

/-- Executes an instruction with every access to the memory checked. -/
def execute? (ins : Instruction) (m : Machine) : Option Execution :=
  match ins.op with
  | .nop => some (.next m.advance)
  | .getChar => m.afterFetch? (Channels.fetch .char m.channels)
  | .putChar =>
    (m.cellAt? m.ptr).map fun v => m.afterEmit (Channels.emit [Cell.toByte v] m.channels)
  | .getNumber => m.afterFetch? (Channels.fetch (.number []) m.channels)
  | .putNumber =>
    (m.cellAt? m.ptr).map fun v => m.afterEmit (Channels.emit (Cell.text v) m.channels)
  | .increment => m.alter? (· + 1)
  | .decrement => m.alter? (· - 1)
  | .zeroOut => m.store? 0
  | .negate => m.alter? (- ·)
  | .add => m.combine? fun a b => m.store? (a + b)
  | .subtract => m.combine? fun a b => m.store? (a - b)
  | .multiply => m.combine? fun a b => m.store? (a * b)
  | .divide =>
    m.combine? fun a b =>
      if b = 0 then some (.failed ⟨.divisionByZero, []⟩ m) else m.store? (remainder a b)
  | .setPointer => some (.next { m with ptr := ins.arg }.advance)
  | .jumpIfPositive =>
    (m.cellAt? m.ptr).map fun v => .next (if 0 < v then m.jump ins.label else m.advance)
  | .jumpIfZero =>
    (m.cellAt? m.ptr).map fun v => .next (if v = 0 then m.jump ins.label else m.advance)
  | .exit => some (.halt m)
  | .unassigned n h => some (.failed ⟨.invalidOpcode (.unassigned n h), []⟩ m)

/-- Fetches and executes an instruction with every access to the code and to the memory checked. The
line of the trace shows the selected cell. -/
def perform? (m : Machine) : Option Execution :=
  if m.inBounds then
    m.instruction?.bind fun ins => (m.cellAt? m.ptr).bind fun _ =>
      match m.traceCrash m.count with
      | some text => some (.failed ⟨.crash text, []⟩ m)
      | none => execute? ins (m.note ins)
  else some (.failed ⟨.outOfBounds m.ptr m.mem.size, []⟩ m)

section InBounds

variable {m : Machine} (h : m.inBounds = true)
include h

theorem cellAt?_of_inBounds : m.cellAt? m.ptr = some m.current := by
  obtain ⟨hlow, hhigh⟩ := bounds_of_inBounds h
  have hlt : m.ptr.toNat < m.mem.size := by omega
  rw [cellAt?, if_neg (by omega), current, Array.getElem?_eq_getElem hlt, Array.getD]
  simp [hlt]

theorem operand?_of_inBounds (k : Nat) : m.operand? k = some (m.operand k) := by
  obtain ⟨hlow, hhigh⟩ := bounds_of_inBounds h
  have haddress : (m.ptr + k).toNat = m.ptr.toNat + k := by omega
  unfold operand? operand
  split
  · have hlt : m.ptr.toNat + k < m.mem.size := by omega
    rw [cellAt?, if_neg (by omega), haddress, Array.getElem?_eq_getElem hlt, Array.getD]
    simp [hlt]
  · have hnot : ¬ m.ptr.toNat + k < m.mem.size := by omega
    rw [Array.getD, dif_neg hnot]

theorem store?_of_inBounds (v : Cell) : m.store? v = some (.next (m.store v).advance) := by
  rw [store?, cellAt?_of_inBounds h, Option.map_some]

theorem afterFetch?_of_inBounds (result : Fetched × Channels) :
    m.afterFetch? result = some (m.afterFetch result) := by
  obtain ⟨fetched, channels⟩ := result
  cases fetched with
  | value v => exact store?_of_inBounds (m := { m with channels }) h v
  | _ => rfl

theorem execute?_of_inBounds (ins : Instruction) : execute? ins m = some (execute ins m) := by
  have hcell := cellAt?_of_inBounds h
  have hoperand := operand?_of_inBounds h
  have hstore := store?_of_inBounds h
  cases hop : ins.op with
  | getChar | getNumber =>
    simp only [execute?, execute, hop, afterFetch_detached]
    exact afterFetch?_of_inBounds h _
  | putChar | putNumber =>
    simp only [execute?, execute, hop, afterEmit_detached, hcell, Option.map_some]
  | divide =>
    simp only [execute?, execute, hop, combine?, hoperand, Option.bind_some, hstore]
    split <;> rfl
  | _ => simp [execute?, execute, hop, alter?, combine?, hcell, hoperand, hstore]

end InBounds

/-- A program at a place in it or just behind it, and a memory of a given size. -/
structure Placed (program : Program) (size : Nat) (m : Machine) : Prop where
  loaded : m.program = program
  counter : 0 ≤ m.pc ∧ m.pc ≤ program.size
  memory : m.mem.size = size

theorem pc_lt_of_not_isPastEnd {m : Machine} (h : m.isPastEnd = false) :
    m.pc < m.program.size := by
  have hnot : ¬ (m.program.size : Int) ≤ m.pc := of_decide_eq_false h
  omega

/-- The instruction at which a running machine stands, with the pointer in bounds. A step comes to
it unless the trace crashes, and a machine that waits is in the middle of it. -/
def here? (m : Machine) : Option Instruction :=
  if m.status = .running ∧ m.inBounds then m.instruction? else none

theorem here?_eq_some_iff {m : Machine} {ins : Instruction} :
    m.here? = some ins ↔ (m.status = .running ∧ m.inBounds = true) ∧ m.instruction? = some ins := by
  unfold here?
  split <;> simp_all

theorem here_of_due {m : Machine} {ins : Instruction} (h : m.due? = some ins) :
    m.here? = some ins := by
  obtain ⟨hrunning, hin, hhere⟩ := of_due h
  exact here?_eq_some_iff.mpr ⟨⟨hrunning, hin⟩, hhere⟩

theorem here?_congr {m other : Machine} (hprogram : m.program = other.program)
    (hpc : m.pc = other.pc) (hptr : m.ptr = other.ptr) (hmem : m.mem = other.mem)
    (hstatus : m.status = other.status) : m.here? = other.here? := by
  obtain ⟨program, pc, ptr, mem, status, count, channels, trace⟩ := m
  subst hprogram hpc hptr hmem hstatus
  rfl

theorem exists_instruction {m : Machine} (hlow : 0 ≤ m.pc) (hhigh : m.isPastEnd = false) :
    ∃ ins, m.instruction? = some ins := by
  have hlt := pc_lt_of_not_isPastEnd hhigh
  have hsize : m.pc.toNat < m.program.code.size := by
    rw [Program.size] at hlt
    omega
  rw [instruction?, if_neg (by omega), Array.getElem?_eq_getElem hsize]
  exact ⟨_, rfl⟩

namespace Placed

variable {program : Program} {size : Nat} {m : Machine} (h : m.Placed program size)
include h

theorem withInput (input : Input) : (m.withInput input).Placed program size :=
  ⟨h.loaded, h.counter, h.memory⟩

theorem traceCrash_of_upcoming (hpast : m.isPastEnd = false) {text : Bytes}
    (hfails : m.upcoming = .error ⟨.crash text, []⟩) : m.traceCrash m.count = some text := by
  obtain ⟨ins, hins⟩ := exists_instruction h.counter.1 hpast
  rw [upcoming, hins] at hfails
  cases hcrash : m.traceCrash m.count with
  | none => simp [hcrash] at hfails
  | some other => simpa [hcrash] using hfails

/-- Every access of a step is in range. -/
theorem perform?_eq (hpast : m.isPastEnd = false) : m.perform? = some m.perform := by
  unfold perform? perform
  split
  · rename_i hin
    obtain ⟨ins, hins⟩ := exists_instruction h.counter.1 hpast
    have hnoted : (m.note ins).inBounds = true := by
      rw [note_eq]
      exact hin
    rw [hins, Option.bind_some, cellAt?_of_inBounds hin, Option.bind_some, upcoming, hins]
    cases hcrash : m.traceCrash m.count with
    | none => simpa using execute?_of_inBounds hnoted ins
    | some text => rfl
  · rfl

theorem of_touches (hlinked : program.Linked) {ins : Instruction} (hhere : m.here? = some ins)
    {x : Execution} (hx : Touches ins m x) : x.machine.Placed program size := by
  refine ⟨hx.program.trans h.loaded, ?_, hx.size.trans h.memory⟩
  obtain ⟨hlow, hhigh, hins⟩ := pc_of_instruction (here?_eq_some_iff.mp hhere).2
  rw [h.loaded] at hhigh hins
  rcases hx.counter with hpc | hpc | ⟨hjump, hpc⟩
  · rw [hpc]
    exact h.counter
  · rw [hpc]
    omega
  · have htarget := hlinked ins hins hjump
    rw [hpc, h.loaded]
    omega

end Placed

theorem registers_settle (x : Execution) :
    (settle x).machine.program = x.machine.program ∧ (settle x).machine.pc = x.machine.pc ∧
      (settle x).machine.ptr = x.machine.ptr ∧ (settle x).machine.mem = x.machine.mem := by
  rcases settle_cases x with ⟨m, rfl, -, hsettle⟩ | ⟨w, m, rfl, hsettle⟩ | hmachine
  · rw [hsettle]
    exact ⟨rfl, rfl, rfl, rfl⟩
  · rw [hsettle]
    exact ⟨rfl, rfl, rfl, rfl⟩
  · rw [hmachine]
    exact ⟨rfl, rfl, rfl, rfl⟩

theorem Placed.settle {program : Program} {size : Nat} {x : Execution}
    (h : x.machine.Placed program size) : (settle x).machine.Placed program size := by
  obtain ⟨hprogram, hpc, -, hmem⟩ := registers_settle x
  exact ⟨hprogram.trans h.loaded, hpc ▸ h.counter, hmem ▸ h.memory⟩

end Machine

namespace Phase

open Machine

def execution? : Phase → Option Execution
  | ready m => if m.isPastEnd then some (.next m) else m.perform?
  | waiting w m => m.afterFetch? (Channels.receive w m.channels)

/-- A phase in range. A machine that waits does so in the middle of an instruction. -/
structure InRange (program : Program) (size : Nat) (p : Phase) : Prop where
  placed : p.machine.Placed program size
  within : ∀ w m, p = .waiting w m → m.here?.isSome

/-- What is done in a phase is in range, and changes little. -/
structure Orderly (program : Program) (size : Nat) (p : Phase) : Prop where
  before : p.machine.Placed program size
  after : p.next.machine.Placed program size
  inside : p.next.machine.status = .running → p.next.machine.pc < program.size
  accesses : p.machine.status = .running → p.execution? = some p.execution
  crashes : p.machine.status = .running → ∀ text failed,
    p.execution = .failed ⟨.crash text, []⟩ failed →
      (∃ moment, p.moments.getLast? = some moment ∧ moment.Crashes text) ∨
        ∃ m, p = .ready m ∧ m.traceCrash m.count = some text
  cells : ∀ i : Nat, (i : Int) ≠ p.machine.ptr → p.next.machine.mem[i]? = p.machine.mem[i]?
  pointer : p.next.machine.ptr = p.machine.ptr ∨
    ∃ ins, p.machine.due? = some ins ∧ ins.op = .setPointer ∧ p.next.machine.ptr = ins.arg
  waits : ∀ w m, p.next = .waiting w m →
    m.pc = p.machine.pc ∧ m.ptr = p.machine.ptr ∧ m.mem = p.machine.mem

theorem registers_next {p : Phase} (h : p.machine.status = .running) :
    p.next.machine.ptr = p.execution.machine.ptr ∧
      p.next.machine.mem = p.execution.machine.mem := by
  rw [next_of_running h, machine_ofStep]
  exact (registers_settle p.execution).2.2

section InRange

variable {program : Program} {size : Nat} {p : Phase} (h : p.InRange program size)
include h

theorem InRange.bounds_of_waiting {w : Wait} {m : Machine} (hwaits : p = .waiting w m) :
    ∃ ins, m.here? = some ins ∧ m.status = .running ∧ m.inBounds = true := by
  obtain ⟨ins, hhere⟩ := Option.isSome_iff_exists.mp (h.within w m hwaits)
  exact ⟨ins, hhere, (here?_eq_some_iff.mp hhere).1⟩

theorem InRange.eq_ready (hended : p.machine.status = .ended) : p = .ready p.machine := by
  cases p with
  | ready m => rfl
  | waiting w m =>
    obtain ⟨-, -, hrunning, -⟩ := h.bounds_of_waiting rfl
    exact absurd (hrunning.symm.trans hended) (by simp)

theorem InRange.execution?_eq : p.execution? = some p.execution := by
  cases p with
  | ready m =>
    rw [execution?, execution, attempt]
    cases hpast : m.isPastEnd with
    | true => rfl
    | false => exact h.placed.perform?_eq hpast
  | waiting w m =>
    obtain ⟨-, -, -, hin⟩ := h.bounds_of_waiting rfl
    exact afterFetch?_of_inBounds hin _

/-- An execution that fails with a crash does so in a call on the channels, or the trace crashes. -/
theorem InRange.crashes (hrunning : p.machine.status = .running) {text : Bytes} {failed : Machine}
    (hfailed : p.execution = .failed ⟨.crash text, []⟩ failed) :
    (∃ moment, p.moments.getLast? = some moment ∧ moment.Crashes text) ∨
      ∃ m, p = .ready m ∧ m.traceCrash m.count = some text := by
  cases p with
  | waiting w m =>
    exact Or.inl ((Channels.reads_receive w m.channels).crashes (fetched_of_failed hfailed))
  | ready m =>
    have hattempt : m.attempt = .failed ⟨.crash text, []⟩ failed := hfailed
    cases hdue : m.due? with
    | some ins =>
      rw [attempt_of_due hdue] at hattempt
      have hlast := crashes_execute hattempt
      rw [momentsOf_note] at hlast
      exact Or.inl (by simpa only [moments, hdue, Option.elim_some] using hlast)
    | none =>
      rcases attempt_of_not_due hrunning hdue with ⟨-, heq⟩ | ⟨hpast, e, heq, hcause⟩
      · exact absurd (heq.symm.trans hattempt) (by simp)
      · obtain ⟨rfl, -⟩ := Execution.failed.inj (heq.symm.trans hattempt)
        have hupcoming := hcause.resolve_left (by simp)
        exact Or.inr ⟨m, rfl, h.placed.traceCrash_of_upcoming hpast hupcoming⟩

/-- What is executed belongs to the instruction at which the machine stands, or leaves the registers
and the memory as they are. Only a step that comes to its instruction moves the pointer. -/
theorem InRange.execution_cases (hrunning : p.machine.status = .running) :
    (∃ ins, p.machine.here? = some ins ∧ Touches ins p.machine p.execution ∧
      (p.machine.due? = some ins ∨ p.execution.machine.ptr = p.machine.ptr)) ∨
    p.execution = .next p.machine ∨ ∃ e, p.execution = .failed e p.machine := by
  cases p with
  | ready m =>
    cases hdue : m.due? with
    | some ins => exact Or.inl ⟨ins, here_of_due hdue, touches_attempt hdue, Or.inl hdue⟩
    | none =>
      rcases attempt_of_not_due hrunning hdue with ⟨-, heq⟩ | ⟨-, e, heq, -⟩
      · exact Or.inr (Or.inl heq)
      · exact Or.inr (Or.inr ⟨e, heq⟩)
  | waiting w m =>
    obtain ⟨ins, hhere, -, hin⟩ := h.bounds_of_waiting rfl
    have htouches : ∀ ins, Touches ins m (m.goOn w) :=
      fun _ => touches_afterFetch (bounds_of_inBounds hin).1 _
    have hptr : (m.goOn w).machine.ptr = m.ptr := by
      simpa using (htouches { op := .nop }).pointer
    exact Or.inl ⟨ins, hhere, htouches ins, Or.inr hptr⟩

theorem InRange.placed_execution (hlinked : program.Linked)
    (hrunning : p.machine.status = .running) : p.execution.machine.Placed program size := by
  rcases h.execution_cases hrunning with ⟨ins, hhere, htouches, -⟩ | heq | ⟨e, heq⟩
  · exact h.placed.of_touches hlinked hhere htouches
  · rw [heq]
    exact h.placed
  · rw [heq]
    exact h.placed

theorem InRange.here_of_waiting (hrunning : p.machine.status = .running) {w : Wait} {m : Machine}
    (hwaits : p.execution = .waiting w m) : m.here?.isSome := by
  have hleads := p.leads
  rw [hwaits] at hleads
  obtain ⟨hpc, hptr, hmem⟩ := hleads.kept (by simp)
  have hsame : m.here? = p.machine.here? :=
    here?_congr hleads.program hpc hptr hmem hleads.status
  rw [hsame]
  rcases h.execution_cases hrunning with ⟨ins, hhere, -⟩ | heq | ⟨e, heq⟩
  · simp [hhere]
  · simp [hwaits] at heq
  · simp [hwaits] at heq

theorem InRange.next_of_ended (hended : p.machine.status = .ended) : p.next = p := by
  rw [h.eq_ready hended]
  exact Phase.next_of_ended hended

theorem InRange.next (hlinked : program.Linked) : p.next.InRange program size := by
  cases hstatus : p.machine.status with
  | ended => rwa [h.next_of_ended hstatus]
  | running =>
    have hsettle := next_of_running hstatus
    constructor
    · rw [hsettle, machine_ofStep]
      exact (h.placed_execution hlinked hstatus).settle
    · intro w m hnext
      exact h.here_of_waiting hstatus (waiting_of_settle (hsettle.symm.trans hnext))

theorem InRange.inside (hlinked : program.Linked)
    (hrunning : p.next.machine.status = .running) : p.next.machine.pc < program.size := by
  have hplaced := (h.next hlinked).placed
  cases hstatus : p.machine.status with
  | ended =>
    rw [h.next_of_ended hstatus, hstatus] at hrunning
    exact absurd hrunning (by simp)
  | running =>
    have hnext := next_of_running hstatus
    -- The end is checked for after every instruction, and a machine that waits is still at one.
    rcases settle_cases p.execution with ⟨m, -, hpast, hsettle⟩ | ⟨w, m, hwaits, hsettle⟩ | hended
    · rw [hnext, hsettle] at hplaced ⊢
      rw [← hplaced.loaded]
      exact pc_lt_of_not_isPastEnd hpast
    · rw [hnext, hsettle] at hplaced ⊢
      obtain ⟨ins, hhere⟩ := Option.isSome_iff_exists.mp (h.here_of_waiting hstatus hwaits)
      rw [← hplaced.loaded]
      exact (pc_of_instruction (here?_eq_some_iff.mp hhere).2).2.1
    · rw [hnext, machine_ofStep, hended] at hrunning
      exact absurd hrunning (by simp)

theorem InRange.changes :
    (∀ i : Nat, (i : Int) ≠ p.machine.ptr → p.next.machine.mem[i]? = p.machine.mem[i]?) ∧
      (p.next.machine.ptr = p.machine.ptr ∨ ∃ ins, p.machine.due? = some ins ∧
        ins.op = .setPointer ∧ p.next.machine.ptr = ins.arg) := by
  cases hstatus : p.machine.status with
  | ended =>
    rw [h.next_of_ended hstatus]
    exact ⟨fun _ _ => rfl, Or.inl rfl⟩
  | running =>
    obtain ⟨hptr, hmem⟩ := registers_next hstatus
    rw [hptr, hmem]
    rcases h.execution_cases hstatus with ⟨ins, -, htouches, hdue | hstays⟩ | heq | ⟨e, heq⟩
    · refine ⟨htouches.cells, htouches.pointer.imp_right ?_⟩
      rintro ⟨hop, harg⟩
      exact ⟨ins, hdue, hop, harg⟩
    · exact ⟨htouches.cells, Or.inl hstays⟩
    · rw [heq]
      exact ⟨fun _ _ => rfl, Or.inl rfl⟩
    · rw [heq]
      exact ⟨fun _ _ => rfl, Or.inl rfl⟩

theorem InRange.waits {w : Wait} {m : Machine} (hnext : p.next = .waiting w m) :
    m.pc = p.machine.pc ∧ m.ptr = p.machine.ptr ∧ m.mem = p.machine.mem := by
  cases hstatus : p.machine.status with
  | ended =>
    rw [h.next_of_ended hstatus] at hnext
    rw [hnext]
    exact ⟨rfl, rfl, rfl⟩
  | running =>
    rw [next_of_running hstatus] at hnext
    have hkept := p.leads.kept
    rw [waiting_of_settle hnext] at hkept
    exact hkept (by simp)

theorem InRange.orderly (hlinked : program.Linked) : p.Orderly program size where
  before := h.placed
  after := (h.next hlinked).placed
  inside := h.inside hlinked
  accesses _ := h.execution?_eq
  crashes hrunning _ _ hfailed := h.crashes hrunning hfailed
  cells := h.changes.1
  pointer := h.changes.2
  waits _ _ hnext := h.waits hnext

theorem InRange.withInput (input : Input) : (p.withInput input).InRange program size := by
  constructor
  · rw [machine_withInput]
    exact h.placed.withInput input
  · intro w m hwaits
    cases p with
    | ready other => simp [Phase.withInput] at hwaits
    | waiting held other =>
      obtain ⟨rfl, rfl⟩ : held = w ∧ other.withInput input = m := by
        simpa [Phase.withInput] using hwaits
      exact h.within held other rfl

end InRange

/-- Along all calls every phase is in range. -/
theorem Passes.inRange {program : Program} {size : Nat} (hlinked : program.Linked)
    {start p : Phase} {past : List Phase} (h : Passes start past p)
    (hstart : start.InRange program size) :
    p.InRange program size ∧ ∀ earlier ∈ past, earlier.InRange program size := by
  induction h with
  | start => exact ⟨hstart, by simp⟩
  | supply _ _ q ih => exact ⟨ih.1.withInput _, ih.2⟩
  | pass _ ih =>
    refine ⟨ih.1.next hlinked, ?_⟩
    simpa [or_imp, forall_and] using ⟨ih.2, ih.1⟩

end Phase

namespace Machine

theorem setAll_cons {m last : Machine} {setting : Setting} {settings : List Setting}
    (h : m.setAll (setting :: settings) = (.ok (), last)) :
    ∃ next, m.set setting = .ok next ∧ next.setAll settings = (.ok (), last) := by
  rw [setAll] at h
  cases hset : m.set setting with
  | ok next =>
    rw [hset] at h
    exact ⟨next, rfl, h⟩
  | failed e => simp [hset] at h
  | crashed text => simp [hset] at h

theorem set_memorySize {m next : Machine} {size : Int}
    (h : m.set (.memorySize size) = .ok next) :
    0 < size ∧ next = { m with mem := Array.replicate size.toNat 0 } := by
  rw [set] at h
  split at h
  · simp at h
  · split at h
    · simp at h
    · exact ⟨by omega, (Outcome.ok.inj h).symm⟩

theorem setAll_keeps {P : Machine → Prop}
    (hset : ∀ {m next : Machine} {setting : Setting}, m.set setting = .ok next → P m → P next)
    {m last : Machine} {settings : List Setting} (h : m.setAll settings = (.ok (), last))
    (hm : P m) : P last := by
  induction settings generalizing m with
  | nil => rwa [← (Prod.mk.inj h).2]
  | cons setting settings ih =>
    obtain ⟨next, hnext, hrest⟩ := setAll_cons h
    exact ih hrest (hset hnext hm)

theorem create_eq_ok {program : Program} {settings : List Setting} {m : Machine}
    (h : create (some program) settings = .ok m) :
    program.fault? = none ∧ (start program).setAll settings = (.ok (), m) := by
  unfold create at h
  split at h
  · simp at h
  · rename_i other heq
    obtain rfl := Option.some.inj heq
    split at h
    · simp at h
    · rename_i hfault
      split at h
      · rename_i hall
        obtain rfl := Outcome.ok.inj h
        exact ⟨hfault, hall⟩
      all_goals simp at h

structure AtStart (program : Program) (m : Machine) : Prop where
  loaded : m.program = program
  counter : m.pc = 0
  pointer : m.ptr = 0
  memory : 0 < m.mem.size

theorem atStart_start (program : Program) : (start program).AtStart program :=
  ⟨rfl, rfl, rfl, by simp [start, defaultMemorySize]⟩

theorem atStart_set {program : Program} {m next : Machine} {setting : Setting}
    (h : m.set setting = .ok next) (hm : m.AtStart program) : next.AtStart program := by
  cases setting with
  | memorySize size =>
    obtain ⟨hpositive, rfl⟩ := set_memorySize h
    have hroom : 0 < (Array.replicate size.toNat (0 : Cell)).size := by
      rw [Array.size_replicate]
      omega
    exact ⟨hm.loaded, hm.counter, hm.pointer, hroom⟩
  | _ =>
    rw [← Outcome.ok.inj h]
    exact ⟨hm.loaded, hm.counter, hm.pointer, hm.memory⟩

theorem atStart_create {program : Program} {settings : List Setting} {m : Machine}
    (h : create (some program) settings = .ok m) : program.Linked ∧ m.AtStart program := by
  obtain ⟨hfault, hall⟩ := create_eq_ok h
  exact ⟨Program.linked_of_fault? hfault, setAll_keeps atStart_set hall (atStart_start program)⟩

theorem AtStart.inRange {program : Program} {m : Machine} (h : m.AtStart program) :
    (Phase.ready m).InRange program m.mem.size where
  placed := ⟨h.loaded, by rw [Phase.machine, h.counter]; omega, rfl⟩
  within := by simp

end Machine

/-- Whatever calls are made on a machine that has come about, the program counter is in the program
or just behind it and the memory keeps its size. In every phase all accesses are in range, the
program counter is at an instruction afterwards unless the program has ended, a crash is one of a
channel or of the trace, and nothing changes but the selected cell and, by `PTR`, the pointer. -/
theorem calls_stay_in_range {program : Program} {settings : List Machine.Setting} {m : Machine}
    (hcreate : Machine.create (some program) settings = .ok m) (actions : List Session.Action) :
    let start : Session := { machine := m }
    (start.actAll actions).2.machine.Placed program m.mem.size ∧
      ∀ p ∈ start.history actions, p.Orderly program m.mem.size := by
  intro start
  obtain ⟨hlinked, hstart⟩ := Machine.atStart_create hcreate
  obtain ⟨hlast, hpast⟩ := (start.passes_actAll actions).inRange hlinked hstart.inRange
  refine ⟨?_, fun p hp => (hpast p hp).orderly hlinked⟩
  have hplaced := hlast.placed
  rwa [Session.machine_phase] at hplaced

/-- An opcode that means nothing, a label that leads nowhere, and a run that waits for a number and
goes on when it comes: it passes through four phases. -/
theorem calls_stay_in_range_strayLabel :
    let program : Program :=
      ⟨#[{ op := .jumpIfZero, label := utf8 "a" }, { op := .getNumber },
          { op := .unassigned 77 (by decide), arg := -3 }],
        [(utf8 "a", 1), (utf8 "b", -9)]⟩
    let actions : List Session.Action := [.run 9, .produce (.write (utf8 "4\n")) 9]
    ∃ m, Machine.create (some program) [.memorySize 2, .input (.queue {})] = .ok m ∧
      let start : Session := { machine := m }
      (start.actAll actions).2.machine.pc = 2 ∧ (start.actAll actions).2.machine.mem = #[4, 0] ∧
        (start.history actions).length = 4 ∧ ∀ p ∈ start.history actions, p.Orderly program 2 := by
  intro program actions
  let m : Machine :=
    { program, mem := #[0, 0], channels := { input := .queue {} } }
  have hcreate : Machine.create (some program) [.memorySize 2, .input (.queue {})] = .ok m := rfl
  refine ⟨m, hcreate, ?_, ?_, ?_, (calls_stay_in_range hcreate actions).2⟩
  · decide +kernel
  · decide +kernel
  · decide +kernel

end Sardine
