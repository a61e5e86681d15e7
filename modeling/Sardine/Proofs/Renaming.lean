import Sardine.Proofs.Mirroring
import Mathlib.Data.Set.Function

/-! The names of labels do not matter.
Jumps look their labels up in the table while the program runs. If all labels are renamed, and no
two of them become one, then every jump still finds the same address. -/
namespace Sardine

def Instruction.rename (r : Bytes → Bytes) (ins : Instruction) : Instruction :=
  { ins with label := r ins.label }

namespace Labels

def rename (r : Bytes → Bytes) (labels : Labels) : Labels :=
  labels.map fun entry => (r entry.1, entry.2)

theorem address?_rename {r : Bytes → Bytes} {labels : Labels} {name : Bytes}
    (h : ∀ entry ∈ labels, r entry.1 = r name → entry.1 = name) :
    (labels.rename r).address? (r name) = labels.address? name := by
  induction labels with
  | nil => rfl
  | cons entry labels ih =>
    have hhead : r entry.1 = r name ↔ entry.1 = name :=
      ⟨h entry List.mem_cons_self, congrArg r⟩
    have hrest := ih fun other hother => h other (List.mem_cons_of_mem _ hother)
    simp only [rename, List.map_cons, address?, hhead] at hrest ⊢
    rw [hrest]

end Labels

namespace Program

def rename (r : Bytes → Bytes) (program : Program) : Program :=
  ⟨program.code.map (Instruction.rename r), program.labels.rename r⟩

/-- The labels that have an address, and those to which a jump goes. -/
def names (program : Program) : Set Bytes :=
  {label | label ∈ program.labels.map Prod.fst ∨
    ∃ ins ∈ program.code, ins.op.isJump = true ∧ ins.label = label}

theorem mirrors_rename {r : Bytes → Bytes} {program : Program}
    (h : Set.InjOn r program.names) : program.Mirrors (program.rename r) := by
  refine ⟨by simp [size, rename], fun n => ?_⟩
  rw [rename, Array.getElem?_map]
  cases hins : program.code[n]? with
  | none => exact Option.Rel.none
  | some ins =>
    refine Option.Rel.some ⟨rfl, rfl, fun hjump => Labels.address?_rename ?_⟩
    intro entry hentry heq
    have hkey : entry.1 ∈ program.names := Or.inl (List.mem_map_of_mem hentry)
    have hused : ins.label ∈ program.names :=
      Or.inr ⟨ins, Array.mem_of_getElem? hins, hjump, rfl⟩
    exact h hkey hused heq

end Program

/-- A program and the same program with its labels renamed, no two of those that occur becoming one.
With the same settings a machine comes about for both or for neither. Whatever calls are then made,
they come back alike, and before each of their phases and after the last call the two machines have
the same registers, memory, status and count, and have done the same on their channels. -/
theorem label_names_unobservable {r : Bytes → Bytes} {program : Program}
    (hr : Set.InjOn r program.names) (settings : List Machine.Setting) :
    ((∃ m, Machine.create (some program) settings = .ok m) ↔
        ∃ m, Machine.create (some (program.rename r)) settings = .ok m) ∧
      ∀ m m' : Machine, Machine.create (some program) settings = .ok m →
        Machine.create (some (program.rename r)) settings = .ok m' →
        ∀ actions : List Session.Action,
          let start : Session := { machine := m }
          let renamed : Session := { machine := m' }
          m.Agrees m' ∧
            (renamed.actAll actions).1 = (start.actAll actions).1 ∧
            (renamed.actAll actions).2.suspended = (start.actAll actions).2.suspended ∧
            (start.actAll actions).2.machine.Agrees (renamed.actAll actions).2.machine ∧
            List.Forall₂ (fun p p' : Phase => p.machine.Agrees p'.machine)
              (start.history actions) (renamed.history actions) := by
  have hmirrors := Program.mirrors_rename hr
  constructor
  · constructor
    · rintro ⟨m, hm⟩
      exact ⟨_, Machine.create_load hmirrors hm⟩
    · rintro ⟨m, hm⟩
      exact ⟨_, Machine.create_load hmirrors.symm hm⟩
  · intro m m' hm hm' actions start renamed
    obtain rfl : m.load (program.rename r) = m' :=
      Outcome.ok.inj ((Machine.create_load hmirrors hm).symm.trans hm')
    have hloaded : m.program = program := (Machine.atStart_create hm).2.loaded
    have hphases : Phase.Mirrored program (program.rename r) start.phase renamed.phase :=
      ⟨hloaded, rfl, rfl⟩
    have hpaired : Session.Paired (Phase.Mirrored program (program.rename r)) start renamed :=
      ⟨hphases, rfl⟩
    obtain ⟨hreplies, hhistory, hsessions⟩ :=
      (Phase.lockstep_mirrored hmirrors).actAll hpaired actions
    have hlast := hsessions.phase.agrees
    rw [Session.machine_phase, Session.machine_phase] at hlast
    exact ⟨hphases.agrees, hreplies.symm, hsessions.suspended.symm, hlast,
      hhistory.imp fun _ _ hpair => hpair.agrees⟩

/-- Two labels change places. The renaming makes one of all other names, but no others occur. The
program counts down from three and leaves the loop by its second label. -/
theorem label_names_unobservable_swapped :
    let swap : Bytes → Bytes := fun label => if label = utf8 "a" then utf8 "b" else utf8 "a"
    let program : Program :=
      ⟨#[{ op := .getNumber }, { op := .nop, label := utf8 "a" }, { op := .putNumber },
          { op := .decrement }, { op := .jumpIfZero, label := utf8 "b" },
          { op := .jumpIfPositive, label := utf8 "a" }, { op := .nop, label := utf8 "b" }],
        [(utf8 "a", 1), (utf8 "b", 6)]⟩
    let settings : List Machine.Setting :=
      [.memorySize 1, .input (.queue {}), .output (.direct {})]
    let actions : List Session.Action := [.step, .produce (.write (utf8 "3\n")) 0, .run 20]
    ∃ m m', Machine.create (some program) settings = .ok m ∧
      Machine.create (some (program.rename swap)) settings = .ok m' ∧
      m'.program.labels = [(utf8 "b", 1), (utf8 "a", 6)] ∧
      let start : Session := { machine := m }
      let renamed : Session := { machine := m' }
      (start.actAll actions).2.machine.Agrees (renamed.actAll actions).2.machine ∧
        (start.actAll actions).2.machine.channels.output.calls =
          #[.write true (utf8 "3"), .write true (utf8 "2"), .write true (utf8 "1")] ∧
        (start.actAll actions).2.machine.count = 16 := by
  intro swap program settings actions
  let m : Machine :=
    { program, mem := #[0], channels := { input := .queue {}, output := .direct {} } }
  let m' : Machine := { m with program := program.rename swap }
  have hm : Machine.create (some program) settings = .ok m := rfl
  have hnames : ∀ label ∈ program.names, label = utf8 "a" ∨ label = utf8 "b" := by
    rintro label (hkey | ⟨ins, hins, hjump, rfl⟩)
    · simpa [program] using hkey
    · have hall : ∀ ins ∈ program.code.toList, ins.op.isJump = true →
          ins.label = utf8 "a" ∨ ins.label = utf8 "b" := by decide +kernel
      exact hall ins (Array.mem_toList_iff.mpr hins) hjump
  have hswap : Set.InjOn swap program.names := by
    have hdistinct : swap (utf8 "a") ≠ swap (utf8 "b") := by decide +kernel
    intro label hlabel other hother heq
    rcases hnames label hlabel with rfl | rfl <;> rcases hnames other hother with rfl | rfl
    · rfl
    · exact absurd heq hdistinct
    · exact absurd heq.symm hdistinct
    · rfl
  have hm' : Machine.create (some (program.rename swap)) settings = .ok m' :=
    Machine.create_load (Program.mirrors_rename hswap) hm
  obtain ⟨-, hsame⟩ := label_names_unobservable hswap settings
  obtain ⟨-, -, -, hagrees, -⟩ := hsame m m' hm hm' actions
  exact ⟨m, m', hm, hm', by decide +kernel, hagrees, by decide +kernel, by decide +kernel⟩

end Sardine
