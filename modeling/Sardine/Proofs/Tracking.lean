import Sardine.Proofs.Resumption
import Sardine.Proofs.Visibility

/-! Following a machine through a program, instruction by instruction.
Of a machine that runs it is enough to know where the program counter stands, what the selected cell
holds and what the channels are. Each instruction says how these change. -/
namespace Sardine

/-- An input that brings some bytes and then the end of its data. Where it has nothing yet, it goes
on as the queue that has arrived by then. -/
inductive Input.Delivers : Bytes → List Queue → Input → Prop
  | ended {input after : Input} (h : input.next = (.stopped .endOfData, after)) :
      Delivers [] [] input
  | byte {input after : Input} {b : UInt8} {bytes : Bytes} {arrivals : List Queue}
      (h : input.next = (.byte b, after)) (hrest : Delivers bytes arrivals after) :
      Delivers (b :: bytes) arrivals input
  | waits {input after : Input} {q : Queue} {bytes : Bytes} {arrivals : List Queue}
      (h : input.next = (.pending, after)) (hrest : Delivers bytes arrivals (.queue q)) :
      Delivers bytes (q :: arrivals) input

namespace Input

theorem delivers_queue (bytes : Bytes) : Delivers bytes [] (.queue ⟨bytes, true⟩) := by
  induction bytes with
  | nil => exact Delivers.ended rfl
  | cons b bytes ih => exact Delivers.byte rfl ih

theorem next_ne_absent {input after : Input} {delivery : Delivery}
    (h : input.next = (delivery, after)) (hthere : input ≠ .absent) : after ≠ .absent := by
  obtain rfl : input.next.2 = after := congrArg Prod.snd h
  cases input with
  | absent => exact absurd rfl hthere
  | bytes rest => cases rest <;> simp [next]
  | _ => simp [next]

end Input

/-- What a reading stores of the bytes to come: the first of them, or a mark that there is none. -/
def Cell.first : Bytes → Cell
  | [] => endCell
  | b :: _ => ofByte b

theorem Channels.fetch_of_flush {input : Input} {output after : Output}
    (hthere : input ≠ .absent) (hflush : output.flush = (.ok (), after)) (w : Wait) :
    fetch w ⟨input, output⟩ = receive w ⟨input, after⟩ := by
  cases input with
  | absent => exact absurd rfl hthere
  | _ => simp only [fetch, hflush]

namespace Machine

theorem RunsTo.exists_run {m : Machine} {t : Step} (h : m.RunsTo [] t) :
    ∃ fuel, run fuel m = .settled t := by
  obtain ⟨fuel, hreturns⟩ := h
  refine ⟨fuel, ?_⟩
  generalize run fuel m = result at hreturns ⊢
  cases hreturns
  rfl

/-- From one machine to another in steps that return without an error and leave the program running,
given the queue each time that one of them has to wait. -/
def Reaches (m : Machine) (arrivals : List Queue) (after : Machine) : Prop :=
  ∃ n, Steps n m arrivals after

section Reaches

variable {m next last : Machine} {now later : List Queue}

theorem Reaches.read (hstep : Completes m.step now (.returned none next))
    (hrunning : next.status = .running) : m.Reaches now next := by
  have hsteps := Steps.succ hstep hrunning (Steps.zero next)
  rw [List.append_nil] at hsteps
  exact ⟨1, hsteps⟩

theorem Reaches.step (hstep : m.step = .returned none next) (hrunning : next.status = .running) :
    m.Reaches [] next := by
  apply Reaches.read _ hrunning
  rw [hstep]
  exact Completes.through rfl

theorem Reaches.trans (h : m.Reaches now next) (hlater : next.Reaches later last) :
    m.Reaches (now ++ later) last := by
  obtain ⟨n, hsteps⟩ := h
  induction hsteps with
  | zero => exact hlater
  | succ hstep hrunning _ ih =>
    obtain ⟨k, hrest⟩ := ih hlater
    rw [List.append_assoc]
    exact ⟨k + 1, Steps.succ hstep hrunning hrest⟩

theorem Reaches.endsBy {t : Step} (h : m.Reaches now next) (hends : next.EndsBy later t) :
    m.EndsBy (now ++ later) t := by
  obtain ⟨hsteps, hfinal, hlast⟩ := hends
  obtain ⟨n, hreached⟩ := h.trans ⟨_, hsteps⟩
  rw [← List.append_assoc]
  exact EndsBy.intro hreached hfinal hlast

end Reaches

/-- A running machine that stands at an instruction, with the selected cell and the channels as
given and a trace that does not crash. -/
structure At (program : Program) (pc : Nat) (v : Cell) (channels : Channels) (m : Machine) :
    Prop where
  loaded : m.program = program
  counter : m.pc = pc
  running : m.status = .running
  inBounds : m.inBounds = true
  cell : m.current = v
  channels : m.channels = channels
  calm : ∀ count, m.traceCrash count = none

namespace At

variable {program : Program} {pc : Nat} {v : Cell} {channels : Channels} {m : Machine}
  (h : At program pc v channels m)
include h

theorem note (ins : Instruction) : At program pc v channels (m.note ins) := by
  have hcalm : ∀ count, (m.note ins).traceCrash count = none := by
    rw [traceCrash_note]
    exact h.calm
  rw [note_eq] at hcalm ⊢
  exact ⟨h.loaded, h.counter, h.running, h.inBounds, h.cell, h.channels, hcalm⟩

theorem advance : At program (pc + 1) v channels m.advance :=
  ⟨h.loaded, congrArg (· + 1) h.counter, h.running, h.inBounds, h.cell, h.channels, h.calm⟩

theorem jump {label : Bytes} {target : Nat} (htarget : program.target label = target) :
    At program target v channels (m.jump label) := by
  refine ⟨h.loaded, ?_, h.running, h.inBounds, h.cell, h.channels, h.calm⟩
  rw [← htarget, ← h.loaded]
  rfl

theorem store (w : Cell) : At program pc w channels (m.store w) := by
  have hptr := bounds_of_inBounds h.inBounds
  have hlt : m.ptr.toNat < m.mem.size := by omega
  refine ⟨h.loaded, h.counter, h.running, ?_, ?_, h.channels, h.calm⟩
  · have hin := h.inBounds
    rwa [Machine.inBounds, ← size_store w m] at hin
  · simp [current, Machine.store, Array.getD_eq_getD_getElem?, hlt]

theorem withChannels (other : Channels) : At program pc v other { m with channels := other } :=
  ⟨h.loaded, h.counter, h.running, h.inBounds, h.cell, rfl, h.calm⟩

theorem settle_next (hlt : pc < program.size) : settle (.next m) = .returned none m := by
  have hpast : m.isPastEnd = false := by
    rw [isPastEnd, h.loaded, h.counter]
    exact decide_eq_false (by omega)
  simp [settle, hpast]

theorem step_eq {ins : Instruction} (hins : program.code[pc]? = some ins) :
    m.step = settle (execute ins (m.note ins)) := by
  have hhere : m.instruction? = some ins := by
    rw [instruction?, h.loaded, h.counter, if_neg (by omega)]
    exact hins
  have hdue : m.due? = some ins :=
    due?_eq_some_iff.mpr
      ⟨⟨h.running, h.inBounds⟩, upcoming_eq_ok_iff.mpr ⟨hhere, h.calm m.count⟩⟩
  rw [step_of_running h.running, attempt_of_due hdue]

/-- An instruction is executed, and the machine comes to stand at another one. -/
theorem reaches {ins : Instruction} (hins : program.code[pc]? = some ins) {next : Machine}
    (hexecute : execute ins (m.note ins) = .next next) {pc' : Nat} {v' : Cell}
    {channels' : Channels} (hnext : At program pc' v' channels' next) (hlt : pc' < program.size) :
    ∃ next, m.Reaches [] next ∧ At program pc' v' channels' next := by
  refine ⟨next, Reaches.step ?_ hnext.running, hnext⟩
  rw [h.step_eq hins, hexecute, hnext.settle_next hlt]

section Instructions

variable {ins : Instruction} (hins : program.code[pc]? = some ins)
include hins

theorem nop (hop : ins.op = .nop) (hlt : pc + 1 < program.size) :
    ∃ next, m.Reaches [] next ∧ At program (pc + 1) v channels next := by
  have hexecute : execute ins (m.note ins) = .next (m.note ins).advance := by
    simp only [execute, hop]
  exact h.reaches hins hexecute (h.note ins).advance hlt

theorem negate (hop : ins.op = .negate) (hlt : pc + 1 < program.size) :
    ∃ next, m.Reaches [] next ∧ At program (pc + 1) (-v) channels next := by
  have hexecute : execute ins (m.note ins) = .next ((m.note ins).store (-v)).advance := by
    simp only [execute, hop, (h.note ins).cell]
  exact h.reaches hins hexecute ((h.note ins).store (-v)).advance hlt

theorem jumpIfPositive (hop : ins.op = .jumpIfPositive) {target : Nat}
    (htarget : program.target ins.label = target) (hlt : pc + 1 < program.size)
    (hinside : target < program.size) :
    ∃ next, m.Reaches [] next ∧
      At program (if 0 < v then target else pc + 1) v channels next := by
  have hnoted := h.note ins
  by_cases hpositive : 0 < v
  · have hexecute : execute ins (m.note ins) = .next ((m.note ins).jump ins.label) := by
      simp only [execute, hop, hnoted.cell, if_pos hpositive]
    rw [if_pos hpositive]
    exact h.reaches hins hexecute (hnoted.jump htarget) hinside
  · have hexecute : execute ins (m.note ins) = .next (m.note ins).advance := by
      simp only [execute, hop, hnoted.cell, if_neg hpositive]
    rw [if_neg hpositive]
    exact h.reaches hins hexecute hnoted.advance hlt

theorem putChar (hop : ins.op = .putChar) (hlt : pc + 1 < program.size) {after : Channels}
    (hemit : Channels.emit [Cell.toByte v] channels = (none, after)) :
    ∃ next, m.Reaches [] next ∧ At program (pc + 1) v after next := by
  have hnoted := h.note ins
  have hexecute : execute ins (m.note ins) =
      .next ({ m.note ins with channels := after } : Machine).advance := by
    have hwritten : ins.written? (m.note ins).current = some [Cell.toByte v] := by
      simp only [Instruction.written?, hop, hnoted.cell]
    rw [execute_of_written hwritten, hnoted.channels, hemit]
    rfl
  exact h.reaches hins hexecute (hnoted.withChannels after).advance hlt

end Instructions

end At

section GetChar

variable {program : Program} {pc : Nat} {v : Cell} {output : Output}

/-- A reading of one byte goes on until the byte comes, or the end of the data. -/
theorem At.completes (hlt : pc + 1 < program.size) {bytes : Bytes} {arrivals : List Queue}
    {input : Input} (hdelivers : Input.Delivers bytes arrivals input) (hthere : input ≠ .absent)
    {m : Machine} (h : At program pc v ⟨input, output⟩ m) :
    ∃ now later after next, arrivals = now ++ later ∧ after ≠ .absent ∧
      Completes (settle (m.goOn .char)) now (.returned none next) ∧
      At program (pc + 1) (Cell.first bytes) ⟨after, output⟩ next ∧
      (bytes ≠ [] → Input.Delivers bytes.tail later after) := by
  induction hdelivers generalizing m with
  | @ended input after hnext =>
    have hstored := ((h.withChannels ⟨after, output⟩).store endCell).advance
    refine ⟨[], [], after, _, rfl, Input.next_ne_absent hnext hthere, ?_, hstored, by simp⟩
    rw [goOn, h.channels, Channels.receive_of_end hnext]
    simp only [Wait.atEnd, Channels.ofResult, afterFetch, hstored.settle_next hlt]
    exact Completes.through rfl
  | @byte input after b bytes arrivals hnext hrest _ =>
    have hstored := ((h.withChannels ⟨after, output⟩).store (Cell.ofByte b)).advance
    refine ⟨[], arrivals, after, _, rfl, Input.next_ne_absent hnext hthere, ?_, hstored,
      fun _ => hrest⟩
    rw [goOn, h.channels, Channels.receive_of_byte hnext]
    simp only [Wait.accept, Channels.ofResult, afterFetch, hstored.settle_next hlt]
    exact Completes.through rfl
  | @waits input after q bytes arrivals hnext hrest ih =>
    obtain ⟨now, later, last, next, rfl, hlast, hcompletes, hat, hmore⟩ :=
      ih (by simp) (h.withChannels ⟨.queue q, output⟩)
    refine ⟨q :: now, later, last, next, rfl, hlast, ?_, hat, hmore⟩
    rw [goOn, h.channels, Channels.receive_of_pending hnext]
    exact Completes.waits hcompletes

theorem At.getChar {input : Input} {m : Machine} (h : At program pc v ⟨input, output⟩ m)
    {ins : Instruction} (hins : program.code[pc]? = some ins) (hop : ins.op = .getChar)
    (hlt : pc + 1 < program.size) {bytes : Bytes} {arrivals : List Queue}
    (hdelivers : Input.Delivers bytes arrivals input) (hthere : input ≠ .absent)
    {flushed : Output} (hflush : output.flush = (.ok (), flushed)) :
    ∃ now later after next, arrivals = now ++ later ∧ after ≠ .absent ∧ m.Reaches now next ∧
      At program (pc + 1) (Cell.first bytes) ⟨after, flushed⟩ next ∧
      (bytes ≠ [] → Input.Delivers bytes.tail later after) := by
  have hnoted := h.note ins
  have hread : waitOf? ins.op = some .char := by rw [hop]; rfl
  have hgoes : execute ins (m.note ins) =
      goOn .char { m.note ins with channels := ⟨input, flushed⟩ } := by
    rw [execute_of_wait hread, hnoted.channels, Channels.fetch_of_flush hthere hflush, goOn]
    obtain ⟨fetched, channels⟩ := Channels.receive .char ⟨input, flushed⟩
    cases fetched <;> rfl
  obtain ⟨now, later, after, next, harrivals, hafter, hcompletes, hat, hmore⟩ :=
    At.completes hlt hdelivers hthere (hnoted.withChannels ⟨input, flushed⟩)
  rw [← hgoes, ← h.step_eq hins] at hcompletes
  exact ⟨now, later, after, next, harrivals, hafter, Reaches.read hcompletes hat.running, hat,
    hmore⟩

end GetChar

end Machine

end Sardine
