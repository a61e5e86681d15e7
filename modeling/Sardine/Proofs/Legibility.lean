import Sardine.Proofs.Expressible
import Sardine.Proofs.Guarding
import Sardine.Proofs.LabelTable

/-! What a listing tells.
A mnemonic is made of capitals, and what stands behind it begins with none; a line ends where the
next line break stands, and neither a label nor a number has one. So the listing of a compiled
program can be taken apart in one way only, whatever its labels look like. -/
namespace Sardine

/-- A text is divided in one way only where the bytes of its front have a property and the first
byte behind it does not. -/
theorem Bytes.division_unique {p : UInt8 → Bool} {front front' back back' : Bytes}
    (hfront : ∀ b ∈ front, p b = true) (hback : ∀ b ∈ back.head?, p b = false)
    (hfront' : ∀ b ∈ front', p b = true) (hback' : ∀ b ∈ back'.head?, p b = false)
    (h : front ++ back = front' ++ back') : front = front' ∧ back = back' := by
  have htake : ∀ {front back : Bytes}, (∀ b ∈ front, p b = true) →
      (∀ b ∈ back.head?, p b = false) → (front ++ back).takeWhile p = front := by
    intro front back hfront hback
    rw [List.takeWhile_append_of_pos hfront]
    cases back with
    | nil => simp
    | cons b back => simp [hback b rfl]
  have hsame := congrArg (List.takeWhile p) h
  rw [htake hfront hback, htake hfront' hback'] at hsame
  subst hsame
  exact ⟨rfl, List.append_cancel_left h⟩

namespace Opcode

def isCapital (b : UInt8) : Bool := 65 ≤ b && b ≤ 90

theorem isCapital_of_mem_text : ∀ op ∈ assigned, ∀ b ∈ op.text, isCapital b = true := by
  decide +kernel

theorem unbroken_text : ∀ op ∈ assigned, ∀ b ∈ op.text, ¬ Source.EndsLine b := by
  decide +kernel

theorem ofMnemonic?_text : ∀ op ∈ assigned, ofMnemonic? op.text = some op := by
  decide +kernel

end Opcode

namespace Instruction

def operand (ins : Instruction) : Bytes :=
  match ins.op with
  | .nop => utf8 "\t:" ++ ins.label
  | .jumpIfPositive => Bytes.space :: ins.label
  | .jumpIfZero => Bytes.space :: ins.label
  | .setPointer => Bytes.space :: Decimal.ofInt ins.arg
  | _ => []

/-- An instruction as the listing of a compiled program shows it. -/
def shown (ins : Instruction) : Bytes := ins.op.text ++ ins.operand

theorem text_append_eq_shown (ins : Instruction) :
    ins.text ++ (if ins.op = .nop then utf8 "\t:" ++ ins.label else []) = ins.shown := by
  unfold text shown operand
  cases ins.op <;> simp [Opcode.isJump]

theorem not_isCapital_of_mem_head?_operand (ins : Instruction) :
    ∀ b ∈ ins.operand.head?, Opcode.isCapital b = false := by
  have hspace : Opcode.isCapital Bytes.space = false := by decide
  have htab : ∀ rest, ∀ b ∈ (utf8 "\t:" ++ rest).head?, Opcode.isCapital b = false := by
    intro rest b hb
    obtain rfl : 9 = b := Option.some.inj hb
    decide
  unfold operand
  split
  · exact htab _
  · simpa using hspace
  · simpa using hspace
  · simpa using hspace
  · simp

theorem IsNormal.eq_of_shown_eq {first second : Instruction} (hfirst : first.IsNormal)
    (hsecond : second.IsNormal) (h : first.shown = second.shown) : first = second := by
  obtain ⟨htext, hoperand⟩ := Bytes.division_unique
    (Opcode.isCapital_of_mem_text _ hfirst.assigned) first.not_isCapital_of_mem_head?_operand
    (Opcode.isCapital_of_mem_text _ hsecond.assigned) second.not_isCapital_of_mem_head?_operand h
  have hop : first.op = second.op := by
    have hword := congrArg Opcode.ofMnemonic? htext
    rw [Opcode.ofMnemonic?_text _ hfirst.assigned,
      Opcode.ofMnemonic?_text _ hsecond.assigned] at hword
    exact Option.some.inj hword
  obtain ⟨op, label, arg⟩ := first
  obtain ⟨op', label', arg'⟩ := second
  obtain rfl : op = op' := hop
  have hlabel : label = label' := by
    by_cases hshows : op = .nop ∨ op = .jumpIfPositive ∨ op = .jumpIfZero
    · rcases hshows with rfl | rfl | rfl <;> simpa [operand] using hoperand
    · obtain ⟨hnop, hswim, hifNone⟩ := by simpa only [not_or] using hshows
      exact (hfirst.label hnop hswim hifNone).trans (hsecond.label hnop hswim hifNone).symm
  have harg : arg = arg' := by
    by_cases hpoint : op = .setPointer
    · subst hpoint
      exact Decimal.ofInt_injective (by simpa [operand] using hoperand)
    · exact (hfirst.arg hpoint).trans (hsecond.arg hpoint).symm
  rw [hlabel, harg]

/-- An instruction without anything in it that a listing would not show, and that fits on a line. -/
structure IsLegible (ins : Instruction) : Prop where
  normal : ins.IsNormal
  unbroken : Source.Unbroken ins.label

theorem IsLegible.unbroken_shown {ins : Instruction} (h : ins.IsLegible) :
    Source.Unbroken ins.shown := by
  have hmark : ∀ b ∈ utf8 "\t:", ¬ Source.EndsLine b := by decide +kernel
  have hspace : ¬ Source.EndsLine Bytes.space := by decide
  have hoperand : Source.Unbroken ins.operand := by
    unfold operand
    split
    · exact List.forall_mem_append.mpr ⟨hmark, h.unbroken⟩
    · exact List.forall_mem_cons.mpr ⟨hspace, h.unbroken⟩
    · exact List.forall_mem_cons.mpr ⟨hspace, h.unbroken⟩
    · exact List.forall_mem_cons.mpr ⟨hspace, Decimal.unbroken_ofInt ins.arg⟩
    · exact List.forall_mem_nil _
  exact List.forall_mem_append.mpr ⟨Opcode.unbroken_text _ h.normal.assigned, hoperand⟩

def line (pc : Nat) (ins : Instruction) : Bytes :=
  Decimal.address pc ++ utf8 "\t" ++ (ins.shown ++ [Bytes.newline])

theorem line_ne_nil (pc : Nat) (ins : Instruction) : ins.line pc ≠ [] := by
  simp [line]

/-- Two lines for one address, with more behind them: what is shown goes as far as the line. -/
theorem IsLegible.eq_of_line_append_eq {first second : Instruction} (hfirst : first.IsLegible)
    (hsecond : second.IsLegible) {pc : Nat} {rest rest' : Bytes}
    (h : first.line pc ++ rest = second.line pc ++ rest') : first = second ∧ rest = rest' := by
  have hinside : ∀ {ins : Instruction}, ins.IsLegible → ∀ b ∈ ins.shown,
      (b != Bytes.newline) = true := fun hins b hb =>
    bne_iff_ne.mpr fun hnewline => hins.unbroken_shown b hb (Or.inl hnewline)
  have hend : ∀ rest, ∀ b ∈ (Bytes.newline :: rest).head?, (b != Bytes.newline) = false := by simp
  simp only [line, List.append_assoc, List.singleton_append, List.append_cancel_left_eq] at h
  obtain ⟨hshown, hrest⟩ := Bytes.division_unique (hinside hfirst) (hend rest) (hinside hsecond)
    (hend rest') h
  exact ⟨hfirst.normal.eq_of_shown_eq hsecond.normal hshown, List.tail_eq_of_cons_eq hrest⟩

end Instruction

namespace Program

theorem writeListing_of_reliable (program : Program) {buffer : Bool} {output : Output}
    (h : output.Reliable buffer) (guards : Nat) :
    ∃ after : Output,
      program.writeListing (.under guards output) = (.ok (), { target := after }) ∧
        after.content = output.content ++ program.listing :=
  (Document.listing program).write_of_reliable h guards

def linesFrom (pc : Nat) (code : List Instruction) : Bytes :=
  (code.zipIdx pc).flatMap fun entry => entry.1.line entry.2

theorem linesFrom_cons (pc : Nat) (ins : Instruction) (code : List Instruction) :
    linesFrom pc (ins :: code) = ins.line pc ++ linesFrom (pc + 1) code := by
  rw [linesFrom, List.zipIdx_cons, List.flatMap_cons, linesFrom]

theorem eq_of_linesFrom_eq {pc : Nat} {first second : List Instruction}
    (hfirst : ∀ ins ∈ first, ins.IsLegible) (hsecond : ∀ ins ∈ second, ins.IsLegible)
    (h : linesFrom pc first = linesFrom pc second) : first = second := by
  induction first generalizing pc second with
  | nil =>
    cases second with
    | nil => rfl
    | cons ins second =>
      rw [linesFrom_cons] at h
      exact absurd h.symm (List.append_ne_nil_of_left_ne_nil (ins.line_ne_nil pc) _)
  | cons ins first ih =>
    cases second with
    | nil =>
      rw [linesFrom_cons] at h
      exact absurd h (List.append_ne_nil_of_left_ne_nil (ins.line_ne_nil pc) _)
    | cons other second =>
      obtain ⟨hins, hcode⟩ := List.forall_mem_cons.mp hfirst
      obtain ⟨hother, hcode'⟩ := List.forall_mem_cons.mp hsecond
      rw [linesFrom_cons, linesFrom_cons] at h
      obtain ⟨heq, hrest⟩ := hins.eq_of_line_append_eq hother h
      rw [heq, ih hcode hcode' hrest]

/-- What a compiled program is like as far as its listing goes. -/
structure Legible (program : Program) : Prop where
  instructions : ∀ ins ∈ program.code, ins.IsLegible
  defines : ∀ {n : Nat} {ins : Instruction}, program.code[n]? = some ins → ins.op = .nop →
    program.definesLabel n ins = true

namespace Legible

variable {program : Program} (h : program.Legible)
include h

theorem flatten_linePieces {pc : Nat} {ins : Instruction} (hcode : program.code[pc]? = some ins) :
    (program.linePieces pc ins).flatten = ins.line pc := by
  have hdefines : program.definesLabel pc ins = decide (ins.op = .nop) := by
    by_cases hop : ins.op = .nop
    · simp [h.defines hcode hop, hop]
    · simp [definesLabel, hop]
  rw [linePieces, instructionPieces, hdefines, Instruction.line, ← Instruction.text_append_eq_shown]
  by_cases hop : ins.op = .nop <;> simp [hop]

theorem listing_eq : program.listing = linesFrom 0 program.code.toList := by
  rw [listing, listingPieces, List.flatten_eq_flatMap, List.flatMap_assoc, linesFrom]
  refine List.flatMap_congr fun entry hentry => ?_
  rw [List.flatMap_id, h.flatten_linePieces (getElem?_of_mem_zipIdx hentry)]

theorem code_eq_of_listing_eq {other : Program} (hother : other.Legible)
    (hsame : program.listing = other.listing) : program.code = other.code := by
  rw [h.listing_eq, hother.listing_eq] at hsame
  refine Array.toList_inj.mp (eq_of_linesFrom_eq (fun ins hins => ?_) (fun ins hins => ?_) hsame)
  · exact h.instructions ins (Array.mem_toList_iff.mp hins)
  · exact hother.instructions ins (Array.mem_toList_iff.mp hins)

end Legible

end Program

theorem Phrase.isNormal_instruction {text : Bytes} {p : Phrase} (hp : Phrase.Says text p) :
    p.instruction.IsNormal := by
  refine ⟨assigned_instruction hp, fun hnop hswim hifNone => ?_, fun hpoint => ?_⟩
  · cases p with
    | plain op => rfl
    | swimTo label => exact absurd rfl hswim
    | arriveAt label => exact absurd rfl hnop
    | ifNoneGoTo label => exact absurd rfl hifNone
    | lookInto digits => rfl
  · cases p with
    | lookInto digits => exact absurd rfl hpoint
    | _ => rfl

theorem Phrase.label_instruction_subset {text : Bytes} {p : Phrase} (h : Phrase.Form text p) :
    p.instruction.label ⊆ text := by
  cases h with
  | swimTo => exact List.subset_append_left _ _
  | arriveAt => exact List.subset_append_left _ _
  | ifNoneGoTo => exact List.subset_append_right _ _
  | _ => exact List.nil_subset _

theorem compile_legible {name source : Bytes} {program : Program}
    (h : compile name source = .ok program) : program.Legible := by
  have hlabelled := compile_labelled h
  obtain ⟨ps, hps, -, -, rfl⟩ := compile_eq_ok_iff.mp h
  refine ⟨fun ins hins => ?_, fun {n ins} hcode hop => ?_⟩
  · obtain ⟨text, htext, p, rfl, hsaid, -⟩ := hps.exists_says (List.mem_toArray.mp hins)
    have hlabel := Phrase.label_instruction_subset hsaid.form
    exact ⟨Phrase.isNormal_instruction hsaid, fun b hb =>
      (Source.isText_of_mem_texts htext).unbroken b (hlabel hb)⟩
  · obtain ⟨hne, hmem⟩ := hlabelled.place hcode hop
    have haddress := (Labels.address?_eq_some_iff_mem hlabelled.keys).mpr hmem
    simp [Program.definesLabel, hop, hne, haddress]

theorem compile_eq_of_code_eq {name name' source source' : Bytes} {first second : Program}
    (hfirst : compile name source = .ok first) (hsecond : compile name' source' = .ok second)
    (h : first.code = second.code) : first = second := by
  obtain ⟨ps, -, -, -, rfl⟩ := compile_eq_ok_iff.mp hfirst
  obtain ⟨qs, -, -, -, rfl⟩ := compile_eq_ok_iff.mp hsecond
  have hcode : ps.map Phrase.instruction = qs.map Phrase.instruction := by
    simpa [Program.ofCode] using h
  rw [hcode]

/-- The listing of a compiled program determines the program. Where no call on a device fails, all
of the listing is written, under any number of guards and through a buffer or not; and if the same
bytes come of two programs, they have the same code and the same labels. -/
theorem listing_determines_program {name name' source source' : Bytes} {first second : Program}
    (hfirst : compile name source = .ok first) (hsecond : compile name' source' = .ok second)
    {buffer buffer' : Bool} {one two : Output} (hone : one.Reliable buffer)
    (htwo : two.Reliable buffer') (guards guards' : Nat) :
    ∃ (after after' : Output) (text text' : Bytes),
      first.writeListing (.under guards one) = (.ok (), { target := after }) ∧
        after.content = one.content ++ text ∧
      second.writeListing (.under guards' two) = (.ok (), { target := after' }) ∧
        after'.content = two.content ++ text' ∧
      (text = text' → first.code = second.code ∧ first.labels = second.labels) := by
  obtain ⟨after, hall, hcontent⟩ := first.writeListing_of_reliable hone guards
  obtain ⟨after', hall', hcontent'⟩ := second.writeListing_of_reliable htwo guards'
  refine ⟨after, after', _, _, hall, hcontent, hall', hcontent', fun hsame => ?_⟩
  have hcode := (compile_legible hfirst).code_eq_of_listing_eq (compile_legible hsecond) hsame
  obtain rfl := compile_eq_of_code_eq hfirst hsecond hcode
  exact ⟨rfl, rfl⟩

/-- Two spellings of one program, with a label that looks like lines of a listing; one listing goes
to a device, the other to a buffer in front of one. -/
theorem listing_determines_program_spellings :
    let label := utf8 ":JZ\t:NOP 1"
    let plain := label ++ utf8 "に着いた\n7番目の水槽をのぞく\nイワシがいなければ" ++ label
    let spaced := utf8 "\r\n " ++ label ++
      utf8 "に着いた\r\n007番目の水槽をのぞく\r\nイワシがいなければ" ++ label
    let listing := utf8 "     0\tNOP\t::JZ\t:NOP 1\n     1\tPTR 7\n     2\tJZ :JZ\t:NOP 1\n"
    ∃ first second, compile [] plain = .ok first ∧ compile [] spaced = .ok second ∧
      ∃ after after' : Output,
        first.writeListing (.bare (.direct {})) = (.ok (), { target := after }) ∧
          after.content = listing ∧
        second.writeListing (.bare (.buffered { device := {} })) = (.ok (), { target := after' }) ∧
          after'.content = listing ∧
        first.code = second.code ∧ first.labels = second.labels := by
  intro label plain spaced listing
  let program : Program := ⟨#[{ op := .nop, label }, { op := .setPointer, arg := 7 },
    { op := .jumpIfZero, label }], [(label, 0)]⟩
  have hplain : compile [] plain = .ok program := compile_of_toOption (by decide +kernel)
  have hspaced : compile [] spaced = .ok program := compile_of_toOption (by decide +kernel)
  have hdevice : Device.Reliable {} := Device.reliable_of_faults rfl
  have hbuffer : BufferedDevice.Reliable { device := {} } := ⟨hdevice, rfl⟩
  obtain ⟨after, after', text, text', hall, hcontent, hall', hcontent', hsame⟩ :=
    listing_determines_program hplain hspaced (.direct hdevice) (.buffered hbuffer) 0 0
  have htext : after.content = listing := by
    have hwritten : (program.writeListing (.bare (.direct {}))).2.target.content = listing := by
      decide +kernel
    exact (congrArg (fun result => result.2.target.content) hall).symm.trans hwritten
  have htext' : after'.content = listing := by
    have hwritten : (program.writeListing
        (.bare (.buffered { device := {} }))).2.target.content = listing := by decide +kernel
    exact (congrArg (fun result => result.2.target.content) hall').symm.trans hwritten
  have heq : text = text' := (hcontent.symm.trans htext).trans (hcontent'.symm.trans htext').symm
  exact ⟨program, program, hplain, hspaced, after, after', hall, htext, hall', htext', hsame heq⟩

end Sardine
