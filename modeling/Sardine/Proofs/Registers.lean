import Sardine.Proofs.Moments

/-! What an instruction does to the registers and to the memory.
At most the selected cell changes. The pointer is set by one instruction only, and the program
counter stays, moves on by one or goes where a jump leads. -/
namespace Sardine.Machine

/-- What can be different after an instruction. -/
structure Touches (ins : Instruction) (m : Machine) (x : Execution) : Prop where
  program : x.machine.program = m.program
  size : x.machine.mem.size = m.mem.size
  cells : ∀ i : Nat, (i : Int) ≠ m.ptr → x.machine.mem[i]? = m.mem[i]?
  pointer : x.machine.ptr = m.ptr ∨ ins.op = .setPointer ∧ x.machine.ptr = ins.arg
  counter : x.machine.pc = m.pc ∨ x.machine.pc = m.pc + 1 ∨
    ins.op.isJump = true ∧ x.machine.pc = m.program.target ins.label

section Touches

variable {ins : Instruction} {m : Machine}

theorem touches_of_kept {x : Execution} (hprogram : x.machine.program = m.program)
    (hpc : x.machine.pc = m.pc) (hptr : x.machine.ptr = m.ptr) (hmem : x.machine.mem = m.mem) :
    Touches ins m x :=
  ⟨hprogram, by rw [hmem], fun i _ => by rw [hmem], Or.inl hptr, Or.inl hpc⟩

theorem getElem?_store {v : Cell} (hptr : 0 ≤ m.ptr) {i : Nat} (h : (i : Int) ≠ m.ptr) :
    (m.store v).mem[i]? = m.mem[i]? := by
  have hne : m.ptr.toNat ≠ i := by omega
  exact Array.getElem?_setIfInBounds_ne hne

theorem touches_store (hptr : 0 ≤ m.ptr) (v : Cell) :
    Touches ins m (.next (m.store v).advance) where
  program := rfl
  size := size_store v m
  cells _ hi := getElem?_store hptr hi
  pointer := Or.inl rfl
  counter := Or.inr (Or.inl rfl)

theorem touches_afterFetch (hptr : 0 ≤ m.ptr) (result : Fetched × Channels) :
    Touches ins m (m.afterFetch result) := by
  obtain ⟨fetched, channels⟩ := result
  cases fetched with
  | value v =>
    have hstore : Touches ins m _ := touches_store hptr v
    exact ⟨rfl, hstore.size, hstore.cells, Or.inl rfl, Or.inr (Or.inl rfl)⟩
  | failed e => exact touches_of_kept rfl rfl rfl rfl
  | waiting w => exact touches_of_kept rfl rfl rfl rfl

theorem touches_execute (hptr : 0 ≤ m.ptr) : Touches ins m (execute ins m) := by
  have hexecutes := executes ins m
  generalize execute ins m = x at hexecutes ⊢
  cases hexecutes with
  | pass => exact ⟨rfl, rfl, fun _ _ => rfl, Or.inl rfl, Or.inr (Or.inl rfl)⟩
  | store v => exact touches_store hptr v
  | point hop => exact ⟨rfl, rfl, fun _ _ => rfl, Or.inr ⟨hop, rfl⟩, Or.inr (Or.inl rfl)⟩
  | jump hop => exact ⟨rfl, rfl, fun _ _ => rfl, Or.inl rfl, Or.inr (Or.inr ⟨hop, rfl⟩)⟩
  | fetch w _ => exact touches_afterFetch hptr _
  | emit bytes =>
    obtain ⟨error, channels⟩ := Channels.emit bytes m.channels
    cases error with
    | none => exact ⟨rfl, rfl, fun _ _ => rfl, Or.inl rfl, Or.inr (Or.inl rfl)⟩
    | some e => exact touches_of_kept rfl rfl rfl rfl
  | exit | divisionByZero | unassigned => exact touches_of_kept rfl rfl rfl rfl

end Touches

theorem of_due {m : Machine} {ins : Instruction} (h : m.due? = some ins) :
    m.status = .running ∧ m.inBounds = true ∧ m.instruction? = some ins := by
  obtain ⟨⟨hrunning, hin⟩, hupcoming⟩ := due?_eq_some_iff.mp h
  exact ⟨hrunning, hin, (upcoming_eq_ok_iff.mp hupcoming).1⟩

theorem bounds_of_inBounds {m : Machine} (h : m.inBounds = true) :
    0 ≤ m.ptr ∧ m.ptr < m.mem.size := by
  simpa [inBounds] using h

theorem touches_attempt {m : Machine} {ins : Instruction} (h : m.due? = some ins) :
    Touches ins m m.attempt := by
  have hptr := (bounds_of_inBounds (of_due h).2.1).1
  have hnoted : 0 ≤ (m.note ins).ptr := by
    rw [note_eq]
    exact hptr
  have htouches : Touches ins (m.note ins) _ := touches_execute hnoted
  rw [attempt_of_due h]
  rw [note_eq] at htouches ⊢
  exact ⟨htouches.program, htouches.size, htouches.cells, htouches.pointer, htouches.counter⟩

theorem pc_of_instruction {m : Machine} {ins : Instruction} (h : m.instruction? = some ins) :
    0 ≤ m.pc ∧ m.pc < m.program.size ∧ ins ∈ m.program.code := by
  unfold instruction? at h
  split at h
  · simp at h
  · obtain ⟨hlt, hget⟩ := Array.getElem?_eq_some_iff.mp h
    refine ⟨by omega, ?_, hget ▸ Array.getElem_mem hlt⟩
    rw [Program.size]
    omega

theorem machine_finish (m : Machine) (error : Option Error) :
    (m.finish error).machine =
      { m with status := .ended, channels := m.channels.shut.2 } := by
  unfold finish
  split <;> simp_all [Step.machine]

/-- A step goes on to the next instruction, or waits, or ends the program. -/
theorem settle_cases (x : Execution) :
    (∃ m, x = .next m ∧ m.isPastEnd = false ∧ settle x = .returned none m) ∨
      (∃ w m, x = .waiting w m ∧ settle x = .waiting w m) ∨
      (settle x).machine =
        { x.machine with status := .ended, channels := x.machine.channels.shut.2 } := by
  cases x with
  | next m =>
    cases hpast : m.isPastEnd with
    | false => exact Or.inl ⟨m, rfl, hpast, by simp [settle, hpast]⟩
    | true =>
      refine Or.inr (Or.inr ?_)
      simp only [settle, hpast, if_true]
      exact machine_finish m none
  | halt m => exact Or.inr (Or.inr (machine_finish m none))
  | failed e m => exact Or.inr (Or.inr (machine_finish m (some e)))
  | waiting w m => exact Or.inr (Or.inl ⟨w, m, rfl, rfl⟩)

end Sardine.Machine
