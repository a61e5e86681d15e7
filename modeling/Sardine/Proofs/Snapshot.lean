import Sardine.Proofs.Legibility
import Sardine.Proofs.NumberLines

/-! What a dump tells.
No line of a dump has a line break inside, so that the lines can be told apart. The first four hold
the registers; every other one holds an address and a cell, with a tab between them that is part of
neither. A cell without a line is zero. -/
namespace Sardine

namespace Source

def endLines (lines : List Bytes) : Bytes := lines.flatMap (· ++ [Bytes.newline])

theorem scan_endLines {lines : List Bytes} (h : ∀ line ∈ lines, Unbroken line) :
    scan (endLines lines) = lines ++ [[]] := by
  induction lines with
  | nil => rfl
  | cons line lines ih =>
    obtain ⟨hline, hlines⟩ := List.forall_mem_cons.mp h
    have hcons : endLines (line :: lines) = line ++ Bytes.newline :: endLines lines := by
      simp [endLines]
    rw [hcons, scan_append_newline hline, ih hlines, List.cons_append]

theorem eq_of_endLines_eq {lines lines' : List Bytes} (h : ∀ line ∈ lines, Unbroken line)
    (h' : ∀ line ∈ lines', Unbroken line) (hsame : endLines lines = endLines lines') :
    lines = lines' := by
  have hscan := congrArg scan hsame
  rw [scan_endLines h, scan_endLines h'] at hscan
  exact List.append_cancel_right hscan

end Source

namespace Decimal

theorem not_space_of_mem_digits {n : Nat} {b : UInt8} (h : b ∈ digits n) :
    (b == Bytes.space) = false := by
  have hlow := (bounds_of_mem_digits h).1
  refine beq_eq_false_iff_ne.mpr ?_
  rintro rfl
  exact absurd hlow (by decide)

theorem exists_address_eq (n : Nat) :
    ∃ blanks : Bytes, (∀ b ∈ blanks, (b == Bytes.space) = true) ∧
      address n = blanks ++ digits n := by
  refine ⟨List.replicate (6 - (digits n).length.succ) Bytes.space ++ [Bytes.space],
    fun b hb => ?_, ?_⟩
  · rcases List.mem_append.mp hb with hb | hb
    · exact beq_iff_eq.mpr (List.eq_of_mem_replicate hb)
    · exact beq_iff_eq.mpr (List.mem_singleton.mp hb)
  · simp [address, Bytes.padLeft]

theorem address_injective : Function.Injective address := by
  intro n k h
  obtain ⟨blanks, hblanks, hn⟩ := exists_address_eq n
  obtain ⟨blanks', hblanks', hk⟩ := exists_address_eq k
  rw [hn, hk] at h
  have hdigits := (Bytes.division_unique hblanks
    (fun b hb => not_space_of_mem_digits (List.mem_of_mem_head? hb)) hblanks'
    (fun b hb => not_space_of_mem_digits (List.mem_of_mem_head? hb)) h).2
  exact digits_injective hdigits

theorem bounds_of_mem_address {n : Nat} {b : UInt8} (h : b ∈ address n) : 32 ≤ b := by
  obtain ⟨blanks, hblanks, hn⟩ := exists_address_eq n
  rw [hn] at h
  rcases List.mem_append.mp h with h | h
  · rw [beq_iff_eq.mp (hblanks b h)]
    decide
  · exact UInt8.le_trans (by decide) (bounds_of_mem_digits h).1

theorem unbroken_address (n : Nat) : Source.Unbroken (address n) := by
  intro b hb hend
  have hlow := bounds_of_mem_address hb
  rcases hend with rfl | rfl <;> exact absurd hlow (by decide)

end Decimal

theorem Cell.text_injective : Function.Injective Cell.text := fun _ _ h =>
  Int64.toInt_inj.mp (Decimal.ofInt_injective h)

theorem Status.text_injective {s s' : Status} (h : utf8 s.text = utf8 s'.text) : s = s' := by
  have hdiffers : utf8 Status.running.text ≠ utf8 Status.ended.text := by decide +kernel
  cases s with
  | running =>
    cases s' with
    | running => rfl
    | ended => exact absurd h hdiffers
  | ended =>
    cases s' with
    | running => exact absurd h.symm hdiffers
    | ended => rfl

theorem Status.unbroken_text (s : Status) : Source.Unbroken (utf8 s.text) := by
  have hbytes : ∀ b ∈ utf8 s.text, ¬ Source.EndsLine b := by cases s <;> decide +kernel
  exact hbytes

namespace Machine

def registerLines (m : Machine) : List Bytes :=
  [utf8 "state: " ++ utf8 m.status.text, utf8 "pc: " ++ Decimal.ofInt m.pc,
    utf8 "ptr: " ++ Decimal.ofInt m.ptr, utf8 "instructions: " ++ Decimal.digits m.count]

def occupied (m : Machine) : List (Cell × Nat) := m.mem.toList.zipIdx.filter (·.1 ≠ 0)

def cellLine (entry : Cell × Nat) : Bytes :=
  Decimal.address entry.2 ++ (utf8 "\t" ++ entry.1.text)

def dumpLines (m : Machine) : List Bytes := m.registerLines ++ m.occupied.map cellLine

theorem registersText_eq (m : Machine) : m.registersText = Source.endLines m.registerLines := by
  have hpc : utf8 "\npc: " = [Bytes.newline] ++ utf8 "pc: " := by decide +kernel
  have hptr : utf8 "\nptr: " = [Bytes.newline] ++ utf8 "ptr: " := by decide +kernel
  have hcount : utf8 "\ninstructions: " = [Bytes.newline] ++ utf8 "instructions: " := by
    decide +kernel
  have hend : utf8 "\n" = [Bytes.newline] := by decide +kernel
  simp only [registersText, registerLines, Source.endLines, hpc, hptr, hcount, hend,
    List.flatMap_cons, List.flatMap_nil, List.append_assoc, List.append_nil]

theorem dumpPieces_eq (m : Machine) :
    m.dumpPieces = m.registersText :: m.occupied.map fun entry => cellText entry.2 entry.1 := by
  rw [dumpPieces, occupied, ← List.filterMap_eq_map, List.filterMap_filter]
  refine congrArg _ (List.filterMap_congr fun entry _ => ?_)
  by_cases hzero : entry.1 = 0 <;> simp [hzero]

theorem dump_eq (m : Machine) : m.dump = Source.endLines m.dumpLines := by
  have hend : utf8 "\n" = [Bytes.newline] := by decide +kernel
  have hcell : ∀ entry : Cell × Nat,
      cellText entry.2 entry.1 = cellLine entry ++ [Bytes.newline] := by
    intro entry
    simp only [cellText, cellLine, hend, List.append_assoc]
  rw [dump, dumpPieces_eq, List.flatten_cons, registersText_eq, dumpLines, Source.endLines,
    Source.endLines, List.flatMap_append, List.flatMap_map, ← List.flatMap_def]
  simp only [hcell]

theorem unbroken_of_mem_dumpLines {m : Machine} : ∀ line ∈ m.dumpLines, Source.Unbroken line := by
  have hnames : ∀ name ∈ ["state: ", "pc: ", "ptr: ", "instructions: ", "\t"],
      ∀ b ∈ utf8 name, ¬ Source.EndsLine b := by
    decide +kernel
  intro line hline
  rcases List.mem_append.mp hline with hline | hline
  · simp only [registerLines, List.mem_cons, List.not_mem_nil, or_false] at hline
    rcases hline with rfl | rfl | rfl | rfl
    · exact List.forall_mem_append.mpr ⟨hnames _ (by simp), m.status.unbroken_text⟩
    · exact List.forall_mem_append.mpr ⟨hnames _ (by simp), Decimal.unbroken_ofInt m.pc⟩
    · exact List.forall_mem_append.mpr ⟨hnames _ (by simp), Decimal.unbroken_ofInt m.ptr⟩
    · exact List.forall_mem_append.mpr ⟨hnames _ (by simp), Decimal.unbroken_digits m.count⟩
  · obtain ⟨entry, -, rfl⟩ := List.mem_map.mp hline
    exact List.forall_mem_append.mpr ⟨Decimal.unbroken_address entry.2,
      List.forall_mem_append.mpr ⟨hnames _ (by simp), entry.1.unbroken_text⟩⟩

theorem cellLine_injective : Function.Injective cellLine := by
  intro entry entry' h
  have haddress : ∀ n, ∀ b ∈ Decimal.address n, decide (32 ≤ b) = true := fun n b hb =>
    decide_eq_true (Decimal.bounds_of_mem_address hb)
  have htab : ∀ rest, ∀ b ∈ (utf8 "\t" ++ rest).head?, decide (32 ≤ b) = false := by
    intro rest b hb
    obtain rfl : 9 = b := Option.some.inj hb
    decide
  obtain ⟨hplace, hcell⟩ := Bytes.division_unique (haddress entry.2) (htab entry.1.text)
    (haddress entry'.2) (htab entry'.1.text) h
  exact Prod.ext (Cell.text_injective (List.append_cancel_left hcell))
    (Decimal.address_injective hplace)

theorem mem_occupied_iff {m : Machine} {v : Cell} {a : Nat} :
    (v, a) ∈ m.occupied ↔ m.mem[a]? = some v ∧ v ≠ 0 := by
  simp [occupied, List.mem_filter, List.mem_zipIdx_iff_getElem?]

theorem mem_eq_of_occupied_eq {first second : Machine} (hsize : first.mem.size = second.mem.size)
    (h : first.occupied = second.occupied) : first.mem = second.mem := by
  have hsame : ∀ (a : Nat) (v : Cell), v ≠ 0 →
      (first.mem[a]? = some v ↔ second.mem[a]? = some v) := by
    intro a v hv
    have hmem : (v, a) ∈ first.occupied ↔ (v, a) ∈ second.occupied := by rw [h]
    simpa [mem_occupied_iff, hv] using hmem
  refine Array.ext hsize fun a ha ha' => ?_
  by_cases hzero : first.mem[a] = 0
  · by_contra hdiffers
    have hother : second.mem[a] ≠ 0 := fun hnone => hdiffers (hzero.trans hnone.symm)
    have hhere := (hsame a _ hother).mpr (Array.getElem?_eq_getElem ha')
    rw [Array.getElem?_eq_getElem ha] at hhere
    exact hdiffers (Option.some.inj hhere)
  · have hthere := (hsame a _ hzero).mp (Array.getElem?_eq_getElem ha)
    rw [Array.getElem?_eq_getElem ha'] at hthere
    exact (Option.some.inj hthere).symm

theorem eq_of_registerLines_eq {first second : Machine}
    (h : first.registerLines = second.registerLines) :
    first.status = second.status ∧ first.pc = second.pc ∧ first.ptr = second.ptr ∧
      first.count = second.count := by
  simp only [registerLines, List.cons.injEq, List.append_cancel_left_eq, and_true] at h
  obtain ⟨hstatus, hpc, hptr, hcount⟩ := h
  exact ⟨Status.text_injective hstatus, Decimal.ofInt_injective hpc, Decimal.ofInt_injective hptr,
    Decimal.digits_injective hcount⟩

/-- What two machines have in common that leave the same dump. -/
theorem dump_eq_iff {first second : Machine} (hsize : first.mem.size = second.mem.size) :
    first.dump = second.dump ↔ first.status = second.status ∧ first.pc = second.pc ∧
      first.ptr = second.ptr ∧ first.count = second.count ∧ first.mem = second.mem := by
  constructor
  · intro h
    rw [dump_eq, dump_eq] at h
    have hlines := Source.eq_of_endLines_eq unbroken_of_mem_dumpLines unbroken_of_mem_dumpLines h
    obtain ⟨hregisters, hcells⟩ := List.append_inj hlines rfl
    obtain ⟨hstatus, hpc, hptr, hcount⟩ := eq_of_registerLines_eq hregisters
    have hoccupied := List.map_injective_iff.mpr cellLine_injective hcells
    exact ⟨hstatus, hpc, hptr, hcount, mem_eq_of_occupied_eq hsize hoccupied⟩
  · rintro ⟨hstatus, hpc, hptr, hcount, hmem⟩
    simp only [dump, dumpPieces, registersText, hstatus, hpc, hptr, hcount, hmem]

end Machine

/-- A dump determines the machine: its state, its registers, the number of instructions it has
executed and every cell of its memory, those included that are left out. Where no call on a device
fails, all of the dump is written, under any number of guards and through a buffer or not; and of
two machines with memories of one size the same bytes come exactly if they agree in all this. -/
theorem dump_determines_machine {first second : Machine} (hsize : first.mem.size = second.mem.size)
    {buffer buffer' : Bool} {one two : Output} (hone : one.Reliable buffer)
    (htwo : two.Reliable buffer') (guards guards' : Nat) :
    ∃ (after after' : Output) (text text' : Bytes),
      first.writeDump (.under guards one) = (.ok (), { target := after }) ∧
        after.content = one.content ++ text ∧
      second.writeDump (.under guards' two) = (.ok (), { target := after' }) ∧
        after'.content = two.content ++ text' ∧
      (text = text' ↔ first.status = second.status ∧ first.pc = second.pc ∧
        first.ptr = second.ptr ∧ first.count = second.count ∧ first.mem = second.mem) := by
  obtain ⟨after, hall, hcontent⟩ := (Document.dump first).write_of_reliable hone guards
  obtain ⟨after', hall', hcontent'⟩ := (Document.dump second).write_of_reliable htwo guards'
  exact ⟨after, after', _, _, hall, hcontent, hall', hcontent', Machine.dump_eq_iff hsize⟩

/-- The lowest cell there is stands alone in a memory, in front of a cell that is zero. A machine
with another program leaves the same dump; one with the cells the other way round leaves another. -/
theorem dump_determines_machine_lowest :
    let first : Machine :=
      { program := ⟨#[], []⟩, pc := 2, ptr := -1, mem := #[Int64.minValue, 0], status := .ended,
        count := 12 }
    let second : Machine := { first with program := ⟨#[{ op := .exit }], []⟩ }
    let third : Machine := { first with mem := #[0, Int64.minValue] }
    let text := utf8
      "state: ended\npc: 2\nptr: -1\ninstructions: 12\n     0\t-9223372036854775808\n"
    first.mem.size = second.mem.size ∧ first.mem.size = third.mem.size ∧
      ∃ after after' after'' : Output,
        first.writeDump (.bare (.direct {})) = (.ok (), { target := after }) ∧
          after.content = text ∧
        second.writeDump (.bare (.buffered { device := {} })) = (.ok (), { target := after' }) ∧
          after'.content = text ∧
        (first.status = second.status ∧ first.pc = second.pc ∧ first.ptr = second.ptr ∧
          first.count = second.count ∧ first.mem = second.mem) ∧
        third.writeDump (.bare (.direct {})) = (.ok (), { target := after'' }) ∧
          after''.content ≠ text := by
  intro first second third text
  have hsize : first.mem.size = second.mem.size := rfl
  have hsize' : first.mem.size = third.mem.size := rfl
  have hdevice : Device.Reliable {} := Device.reliable_of_faults rfl
  have hbuffer : BufferedDevice.Reliable { device := {} } := ⟨hdevice, rfl⟩
  obtain ⟨after, after', text₁, text₂, hall, hcontent, hall', hcontent', hsame⟩ :=
    dump_determines_machine hsize (.direct hdevice) (.buffered hbuffer) 0 0
  obtain ⟨again, after'', text₃, text₄, hagain, hrepeat, hall'', hcontent'', hdiffers⟩ :=
    dump_determines_machine hsize' (.direct hdevice) (.direct hdevice) 0 0
  obtain rfl : after = again :=
    congrArg (fun result => result.2.target) (hall.symm.trans hagain)
  rw [Writer.under] at hall hall' hall''
  have htext : after.content = text := by
    have hwritten : (first.writeDump (.bare (.direct {}))).2.target.content = text := by
      decide +kernel
    rwa [hall] at hwritten
  have htext' : after'.content = text := by
    have hwritten :
        (second.writeDump (.bare (.buffered { device := {} }))).2.target.content = text := by
      decide +kernel
    rwa [hall'] at hwritten
  have heq : text₁ = text₂ := (hcontent.symm.trans htext).trans (hcontent'.symm.trans htext').symm
  have hmoved : after''.content ≠ text := fun hcontents => by
    have hlast := (hrepeat.symm.trans htext).trans (hcontent''.symm.trans hcontents).symm
    have hmem : first.mem = third.mem := (hdiffers.mp hlast).2.2.2.2
    exact absurd hmem (by decide)
  exact ⟨hsize, hsize', after, after', after'', hall, htext, hall', htext', hsame.mp heq, hall'',
    hmoved⟩

end Sardine
