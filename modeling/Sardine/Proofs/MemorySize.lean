import Sardine.Proofs.Bounds
import Sardine.Proofs.Lockstep
import Sardine.Proofs.Safety

/-! Programs do not notice how large the memory is.
If the memory has all cells that are ever selected, then more cells behind them stay zero, and the
operands that are read there are zero without them as well. -/
namespace Sardine

/-- Every pointer that is set selects one of so many cells. -/
def Program.Covered (size : Int) (program : Program) : Prop :=
  ∀ ins ∈ program.code, ins.op = .setPointer → 0 ≤ ins.arg ∧ ins.arg < size

theorem Program.Sound.covered {program : Program} (h : program.Sound) {size : Int}
    (hsize : 2019 ≤ size) : program.Covered size := by
  intro ins hins hop
  have hbounds := h.pointer ins hins hop
  omega

namespace Machine

/-- The machine with some more cells behind its memory, all zero. -/
def grow (k : Nat) (m : Machine) : Machine := { m with mem := m.mem ++ Array.replicate k 0 }

/-- The memory has the selected cell, and all that are selected later. -/
structure Confined (m : Machine) : Prop where
  pointer : 0 ≤ m.ptr ∧ m.ptr < m.mem.size
  covered : m.program.Covered m.mem.size

section Grow

variable (k : Nat) (m : Machine)

theorem getD_grow (i : Nat) : (m.grow k).mem.getD i 0 = m.mem.getD i 0 := by
  rw [grow, Array.getD_eq_getD_getElem?, Array.getD_eq_getD_getElem?, Array.getElem?_append]
  split
  · rfl
  · rename_i hout
    have hnone : m.mem[i]? = none := Array.getElem?_eq_none (by omega)
    rw [hnone, Array.getElem?_replicate]
    split <;> rfl

@[simp] theorem current_grow : (m.grow k).current = m.current := getD_grow k m _

@[simp] theorem operand_grow (j : Nat) : (m.grow k).operand j = m.operand j := getD_grow k m _

theorem note_grow (ins : Instruction) : (m.grow k).note ins = (m.note ins).grow k := by
  have hline : (m.grow k).traceLine ins = m.traceLine ins := by
    simp only [traceLine, current_grow]
    rfl
  exact note_map rfl rfl hline fun _ _ => rfl

theorem finish_grow (error : Option Error) :
    (m.grow k).finish error = (m.finish error).map (grow k) := by
  have hchannels : (m.grow k).channels = m.channels := rfl
  unfold finish
  rw [hchannels]
  split <;> rfl

theorem afterEmit_grow (result : Option Error × Channels) :
    (m.grow k).afterEmit result = (m.afterEmit result).map (grow k) := by
  obtain ⟨error, channels⟩ := result
  cases error <;> rfl

theorem settle_grow (x : Execution) : settle (x.map (grow k)) = (settle x).map (grow k) :=
  settle_map rfl (finish_grow k x.machine)

end Grow

section Confined

variable {m : Machine} (h : m.Confined)
include h

theorem Confined.withChannels (channels : Channels) : Confined { m with channels } :=
  ⟨h.pointer, h.covered⟩

theorem Confined.note (ins : Instruction) : (m.note ins).Confined := by
  rw [note_eq]
  exact ⟨h.pointer, h.covered⟩

theorem Confined.inBounds : m.inBounds = true := by
  obtain ⟨hlow, hhigh⟩ := h.pointer
  simp [Machine.inBounds, hlow, hhigh]

theorem Confined.grow (k : Nat) : (m.grow k).Confined := by
  have hsize : (m.grow k).mem.size = m.mem.size + k := by
    simp [Machine.grow]
  obtain ⟨hlow, hhigh⟩ := h.pointer
  constructor
  · have hptr : (m.grow k).ptr = m.ptr := rfl
    rw [hptr, hsize]
    omega
  · intro ins hins hop
    have hbounds := h.covered ins hins hop
    rw [hsize]
    omega

theorem Confined.store_grow (k : Nat) (v : Cell) : (m.grow k).store v = (m.store v).grow k := by
  -- The selected cell is one that both memories have, so the zeros behind are not written to.
  have hlt : m.ptr.toNat < m.mem.size := by
    have hbounds := h.pointer
    omega
  have hmem : (m.mem ++ Array.replicate k 0).setIfInBounds m.ptr.toNat v =
      m.mem.setIfInBounds m.ptr.toNat v ++ Array.replicate k 0 :=
    Array.setIfInBounds_append_left hlt
  exact congrArg (fun mem => ({ m with mem } : Machine)) hmem

theorem Confined.afterFetch_grow (k : Nat) (result : Fetched × Channels) :
    (m.grow k).afterFetch result = (m.afterFetch result).map (Machine.grow k) := by
  obtain ⟨fetched, channels⟩ := result
  cases fetched with
  | value v =>
    have hstore := (h.withChannels channels).store_grow k v
    exact congrArg (fun m => Execution.next m.advance) hstore
  | _ => rfl

theorem Confined.execute_grow (k : Nat) (ins : Instruction) :
    execute ins (m.grow k) = (execute ins m).map (Machine.grow k) := by
  have hstore := h.store_grow k
  cases hop : ins.op with
  | getChar | getNumber =>
    simp only [execute, hop, afterFetch_detached]
    exact h.afterFetch_grow k _
  | putChar | putNumber =>
    simp only [execute, hop, afterEmit_detached, current_grow]
    exact afterEmit_grow k m _
  | divide =>
    simp only [execute, hop, operand_grow, hstore]
    split <;> rfl
  | jumpIfPositive | jumpIfZero =>
    simp only [execute, hop, current_grow]
    split <;> rfl
  | _ =>
    simp only [execute, hop, current_grow, operand_grow, hstore]
    rfl

theorem Confined.attempt_grow (k : Nat) :
    (m.grow k).attempt = m.attempt.map (Machine.grow k) := by
  have hpast : (m.grow k).isPastEnd = m.isPastEnd := rfl
  have hupcoming : (m.grow k).upcoming = m.upcoming := rfl
  unfold attempt perform
  rw [hpast, hupcoming, h.inBounds, (h.grow k).inBounds]
  split
  · rfl
  · cases m.upcoming with
    | error e => rfl
    | ok ins =>
      have hexecute := (h.note ins).execute_grow k ins
      rw [← note_grow] at hexecute
      exact hexecute

theorem Confined.of_touches {ins : Instruction} {x : Execution} (hx : Touches ins m x)
    (hins : ins.op = .setPointer → ins ∈ m.program.code) : x.machine.Confined := by
  have hcovered : x.machine.program.Covered x.machine.mem.size := by
    rw [hx.program, hx.size]
    exact h.covered
  refine ⟨?_, hcovered⟩
  rcases hx.pointer with hptr | ⟨hop, hptr⟩
  · rw [hptr, hx.size]
    exact h.pointer
  · rw [hptr, hx.size]
    exact h.covered ins (hins hop) hop

theorem Confined.attempt (hrunning : m.status = .running) : m.attempt.machine.Confined := by
  cases hdue : m.due? with
  | some ins =>
    exact h.of_touches (touches_attempt hdue) fun _ => (pc_of_instruction (of_due hdue).2.2).2.2
  | none =>
    rwa [machine_attempt_of_not_due hrunning hdue]

theorem Confined.goOn (w : Wait) : (m.goOn w).machine.Confined := by
  have htouches : Touches { op := .getChar } m (m.goOn w) := touches_afterFetch h.pointer.1 _
  exact h.of_touches htouches (by simp)

end Confined

theorem Confined.settle {x : Execution} (h : x.machine.Confined) :
    (settle x).machine.Confined := by
  obtain ⟨hprogram, -, hptr, hmem⟩ := registers_settle x
  constructor
  · rw [hptr, hmem]
    exact h.pointer
  · rw [hprogram, hmem]
    exact h.covered

end Machine

namespace Phase

open Machine

/-- A phase, and the same one in a larger memory. -/
structure Grown (k : Nat) (p other : Phase) : Prop where
  confined : p.machine.Confined
  grown : other = p.map (Machine.grow k)

section Confined

variable {p : Phase} (h : p.machine.Confined)
include h

theorem step_grow (k : Nat) : (p.map (Machine.grow k)).step = p.step.map (Machine.grow k) := by
  have hexecution : (p.map (Machine.grow k)).execution = p.execution.map (Machine.grow k) := by
    cases p with
    | ready m => exact Confined.attempt_grow h k
    | waiting w m => exact Confined.afterFetch_grow h k _
  exact step_map rfl hexecution (settle_grow k p.execution)

theorem confined_next : p.next.machine.Confined := by
  cases p with
  | ready m =>
    cases hstatus : m.status with
    | ended =>
      rw [next_of_ended hstatus]
      exact h
    | running =>
      have hrunning : (ready m).machine.status = .running := hstatus
      rw [next_of_running hrunning, machine_ofStep]
      exact (Confined.attempt h hstatus).settle
  | waiting w m =>
    rw [next, machine_ofStep]
    exact (Confined.goOn h w).settle

end Confined

/-- Phases in memories of different size go in lockstep. -/
theorem lockstep_grown (k : Nat) : Lockstep (Grown k) where
  step := by
    rintro p _ ⟨hconfined, rfl⟩
    rw [step_grow hconfined]
    exact alike_map ⟨confined_next hconfined, rfl⟩
  status := by
    rintro m other ⟨-, hgrown⟩
    obtain rfl : other = m.grow k := by simpa [map] using hgrown
    rfl
  queue := by
    rintro p _ ⟨-, rfl⟩ q
    rw [machine_map]
    rfl
  supply := by
    rintro p _ held ⟨hconfined, rfl⟩ - q
    constructor
    · rw [machine_withInput]
      exact ⟨hconfined.pointer, hconfined.covered⟩
    · cases p <;> rfl

theorem Grown.map_eq {k : Nat} {phases others : List Phase}
    (h : List.Forall₂ (Grown k) phases others) : others = phases.map (map (Machine.grow k)) := by
  induction h with
  | nil => rfl
  | cons hgrown _ ih => rw [List.map_cons, ← ih, hgrown.grown]

end Phase

namespace Machine

def Setting.KeepsMemory (setting : Setting) : Prop := ∀ size, setting ≠ .memorySize size

theorem setAll_append {m last : Machine} {before after : List Setting}
    (h : m.setAll (before ++ after) = (.ok (), last)) :
    ∃ middle, m.setAll before = (.ok (), middle) ∧ middle.setAll after = (.ok (), last) := by
  induction before generalizing m with
  | nil => exact ⟨m, rfl, h⟩
  | cons setting before ih =>
    obtain ⟨next, hnext, hrest⟩ := setAll_cons h
    obtain ⟨middle, hmiddle, hlast⟩ := ih hrest
    refine ⟨middle, ?_, hlast⟩
    rw [setAll, hnext]
    exact hmiddle

theorem setAll_withMem {settings : List Setting}
    (hkeep : ∀ setting ∈ settings, setting.KeepsMemory) {m last : Machine}
    (h : m.setAll settings = (.ok (), last)) (mem : Array Cell) :
    last.mem = m.mem ∧
      ({ m with mem } : Machine).setAll settings = (.ok (), { last with mem }) := by
  induction settings generalizing m with
  | nil =>
    obtain rfl : m = last := (Prod.mk.inj h).2
    exact ⟨rfl, rfl⟩
  | cons setting settings ih =>
    have hrest := fun other hother => hkeep other (List.mem_cons_of_mem _ hother)
    cases setting with
    | memorySize size => exact absurd rfl (hkeep _ List.mem_cons_self size)
    | input input => exact ih hrest h
    | output output => exact ih hrest h
    | trace trace => exact ih hrest h

/-- Machines that come about with the same settings but for the size of the memory differ in the
memory only, which is all zero. -/
theorem create_resized {program : Program} {before after : List Setting}
    (hkeep : ∀ setting ∈ after, setting.KeepsMemory) {size larger : Int} {m m' : Machine}
    (hm : create (some program) (before ++ .memorySize size :: after) = .ok m)
    (hm' : create (some program) (before ++ .memorySize larger :: after) = .ok m') :
    0 < size ∧ m.mem = Array.replicate size.toNat 0 ∧
      m' = { m with mem := Array.replicate larger.toNat 0 } := by
  obtain ⟨middle, hbefore, hafter⟩ := setAll_append (create_eq_ok hm).2
  obtain ⟨middle', hbefore', hafter'⟩ := setAll_append (create_eq_ok hm').2
  obtain rfl : middle = middle' := (Prod.mk.inj (hbefore.symm.trans hbefore')).2
  obtain ⟨next, hnext, hlast⟩ := setAll_cons hafter
  obtain ⟨next', hnext', hlast'⟩ := setAll_cons hafter'
  obtain ⟨hpositive, rfl⟩ := set_memorySize hnext
  obtain ⟨-, rfl⟩ := set_memorySize hnext'
  obtain ⟨hmem, hresized⟩ := setAll_withMem hkeep hlast (Array.replicate larger.toNat 0)
  exact ⟨hpositive, hmem, (Prod.mk.inj (hlast'.symm.trans hresized)).2⟩

end Machine

/-- Two machines that come about with the same settings but for the size of the memory, the smaller
memory having every cell that the program selects, and with the same cells in both memories and
zeros behind them. Whatever calls are made, all of them come back alike, and in every phase the
machines differ only in the zeros behind the memory. Compiled programs select no cell but the first
2019. -/
theorem memory_size_unobservable {program : Program} {before after : List Machine.Setting}
    (hkeep : ∀ setting ∈ after, setting.KeepsMemory) {size larger : Int} {m m' : Machine}
    (hm : Machine.create (some program) (before ++ .memorySize size :: after) = .ok m)
    (hm' : Machine.create (some program) (before ++ .memorySize larger :: after) = .ok m')
    (hle : size ≤ larger)
    (hcovered : program.Covered size ∨
      2019 ≤ size ∧ ∃ name source, compile name source = .ok program)
    {cells : Array Cell} (hcells : cells.size = size.toNat) (actions : List Session.Action) :
    let k := (larger - size).toNat
    let start : Session := { machine := { m with mem := cells } }
    let other : Session := { machine := { m' with mem := cells ++ Array.replicate k 0 } }
    m.mem = Array.replicate size.toNat 0 ∧ m'.mem = m.mem ++ Array.replicate k 0 ∧
      (other.actAll actions).1 = (start.actAll actions).1 ∧
      (other.actAll actions).2.suspended = (start.actAll actions).2.suspended ∧
      (other.actAll actions).2.machine = (start.actAll actions).2.machine.grow k ∧
      other.history actions = (start.history actions).map (Phase.map (Machine.grow k)) := by
  intro k start other
  obtain ⟨hpositive, hmem, hresized⟩ := Machine.create_resized hkeep hm hm'
  obtain ⟨-, hstart⟩ := Machine.atStart_create hm
  have hpointers : program.Covered size := by
    rcases hcovered with hcovered | ⟨hsize, name, source, hcompile⟩
    · exact hcovered
    · exact (compile_sound hcompile).covered hsize
  have hsum : size.toNat + k = larger.toNat := by omega
  have hmem' : m'.mem = m.mem ++ Array.replicate k 0 := by
    rw [hresized, hmem, Array.replicate_append_replicate, hsum]
  have hconfined : start.machine.Confined := by
    have hptr : start.machine.ptr = 0 := hstart.pointer
    have hsize : (cells.size : Int) = size := by omega
    constructor
    · rw [hptr, hsize]
      omega
    · rw [hsize, hstart.loaded]
      exact hpointers
  have hgrown : other.machine = start.machine.grow k := by
    simp only [other, hresized]
    rfl
  have hpaired : Session.Paired (Phase.Grown k) start other :=
    ⟨⟨hconfined, congrArg Phase.ready hgrown⟩, rfl⟩
  obtain ⟨hreplies, hphases, hsessions⟩ := (Phase.lockstep_grown k).actAll hpaired actions
  have hlast := congrArg Phase.machine hsessions.phase.grown
  rw [Phase.machine_map, Session.machine_phase, Session.machine_phase] at hlast
  exact ⟨hmem, hmem', hreplies.symm, hsessions.suspended.symm, hlast, Phase.Grown.map_eq hphases⟩

/-- A sum at the last cell takes both operands from behind the memory of two cells, and from the
zeros of the memory of five. Both programs write the same and end with the same cells. -/
theorem memory_size_unobservable_lastCell :
    let program : Program :=
      ⟨#[{ op := .setPointer, arg := 1 }, { op := .putNumber }, { op := .add },
        { op := .putNumber }], []⟩
    let m : Machine := { program, mem := #[0, 0], channels := { output := .direct {} } }
    let m' : Machine := { m with mem := #[0, 0, 0, 0, 0] }
    let start : Session := { machine := { m with mem := #[3, 8] } }
    let other : Session := { machine := { m' with mem := #[3, 8] ++ Array.replicate 3 0 } }
    let actions : List Session.Action := [.step, .run 9]
    (other.actAll actions).2.machine = (start.actAll actions).2.machine.grow 3 ∧
      (start.actAll actions).2.machine.mem = #[3, 0] ∧
      (other.actAll actions).2.machine.channels.output.calls =
        #[.write true (utf8 "8"), .write true (utf8 "0")] := by
  intro program m m' start other actions
  have hm : Machine.create (some program) [.memorySize 2, .output (.direct {})] = .ok m := rfl
  have hm' : Machine.create (some program) [.memorySize 5, .output (.direct {})] = .ok m' := rfl
  have hkeep : ∀ setting ∈ [Machine.Setting.output (.direct {})], setting.KeepsMemory := by
    simp [Machine.Setting.KeepsMemory]
  have hcovered : program.Covered 2 := by
    simp [Program.Covered, program]
  have hmore : Int.toNat (5 - 2) = 3 := by decide
  have hsame := @memory_size_unobservable program [] _ hkeep 2 5 m m' hm hm' (by decide)
    (Or.inl hcovered) #[3, 8] rfl actions
  have hstart : ({ machine := { m with mem := #[3, 8] } } : Session) = start := rfl
  have hother : ({ machine := { m' with mem := #[3, 8] ++ Array.replicate 3 0 } } : Session) =
      other := rfl
  simp only [hmore, hstart, hother] at hsame
  exact ⟨hsame.2.2.2.2.1, by decide +kernel, by decide +kernel⟩

end Sardine
