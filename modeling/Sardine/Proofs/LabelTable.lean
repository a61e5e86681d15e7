import Sardine.Proofs.Safety
import Mathlib.Data.Set.Function

/-! The table of labels of a compiled program.
Each of its entries leads to the instruction that defines the label, and each instruction that
defines a label has its entry: the table and these instructions correspond one to one. -/
namespace Sardine

theorem Labels.address?_eq_some_iff_mem {labels : Labels} (h : (labels.map Prod.fst).Nodup)
    {name : Bytes} {address : Int} :
    labels.address? name = some address ↔ (name, address) ∈ labels := by
  induction labels with
  | nil => simp [address?]
  | cons entry labels ih =>
    obtain ⟨first, place⟩ := entry
    simp only [List.map_cons, List.nodup_cons] at h
    by_cases heq : first = name
    · subst heq
      have hnot : (first, address) ∉ labels := fun hmem => h.1 (List.mem_map_of_mem hmem)
      simp [address?, hnot, eq_comm]
    · have hne : ¬ name = first := fun hname => heq hname.symm
      simpa [address?, heq, hne] using ih h.2

theorem Draft.nodup_labels {draft : Draft} (h : (draft.mentions.map Mention.name).Nodup) :
    (draft.labels.map Prod.fst).Nodup := by
  have hnames : draft.mentions.Pairwise fun a b => a.name ≠ b.name := List.pairwise_map.mp h
  rw [List.Nodup, List.pairwise_map, labels, List.pairwise_filterMap]
  refine hnames.imp fun {a b} hne x hx y hy => ?_
  obtain ⟨_, _, rfl⟩ := Option.map_eq_some_iff.mp hx
  obtain ⟨_, _, rfl⟩ := Option.map_eq_some_iff.mp hy
  exact hne

namespace Program

def places (program : Program) : Set Int :=
  {address | ∃ (n : Nat) (ins : Instruction),
    (n : Int) = address ∧ program.code[n]? = some ins ∧ ins.op = .nop}

/-- What the table of labels has to do with the code. -/
structure Labelled (program : Program) : Prop where
  keys : (program.labels.map Prod.fst).Nodup
  entry : ∀ {label : Bytes} {address : Int}, (label, address) ∈ program.labels →
    ∃ n : Nat, (n : Int) = address ∧ program.code[n]? = some { op := .nop, label }
  place : ∀ {n : Nat} {ins : Instruction}, program.code[n]? = some ins → ins.op = .nop →
    ins.label ≠ [] ∧ (ins.label, (n : Int)) ∈ program.labels

namespace Labelled

variable {program : Program} (h : program.Labelled)
include h

theorem bounds {label : Bytes} {address : Int} (hmem : (label, address) ∈ program.labels) :
    0 ≤ address ∧ address < program.size ∧
      program.code[address.toNat]? = some { op := .nop, label } := by
  obtain ⟨n, rfl, hn⟩ := h.entry hmem
  have hlt : n < program.code.size := (Array.getElem?_eq_some_iff.mp hn).1
  exact ⟨Int.natCast_nonneg n, Int.ofNat_lt.mpr hlt, hn⟩

/-- Every instruction that defines a label has one entry, and every entry has one such
instruction. -/
theorem bijOn : Set.BijOn Prod.snd {entry | entry ∈ program.labels} program.places := by
  refine ⟨?_, ?_, ?_⟩
  · rintro ⟨label, address⟩ hmem
    obtain ⟨n, hn, hcode⟩ := h.entry hmem
    exact ⟨n, _, hn, hcode, rfl⟩
  · rintro ⟨label, address⟩ hmem ⟨other, address'⟩ hmem' heq
    obtain rfl : address = address' := heq
    have hcode := (h.bounds hmem).2.2
    have hcode' := (h.bounds hmem').2.2
    rw [hcode] at hcode'
    have hins := Option.some.inj hcode'
    obtain rfl : label = other := congrArg Instruction.label hins
    rfl
  · rintro address ⟨n, ins, hn, hcode, hop⟩
    exact ⟨(ins.label, address), hn ▸ (h.place hcode hop).2, rfl⟩

end Labelled

end Program

theorem Phrase.instruction_of_nop {text : Bytes} {p : Phrase} (hp : Phrase.Says text p)
    (hop : p.instruction.op = .nop) :
    p.instruction.label ≠ [] ∧ p.instruction = { op := .nop, label := p.instruction.label } := by
  have hdef : p.instruction.Defines p.instruction.label := ⟨hop, rfl⟩
  have harrive := (Phrase.defines_instruction_iff hp).mp hdef
  generalize p.instruction.label = label at harrive
  subst harrive
  have hform := before?_eq_some_iff.mp (form_arriveAt_iff.mp hp.form)
  exact ⟨hform.1, rfl⟩

theorem Program.mem_labels_ofCode_iff {code : List Instruction} (h : Distinct code) {label : Bytes}
    {address : Int} :
    (label, address) ∈ (Program.ofCode code).labels ↔
      ∃ n : Nat, (n : Int) = address ∧ ∃ ins, code[n]? = some ins ∧ ins.Defines label := by
  have hkeys : ((Program.ofCode code).labels.map Prod.fst).Nodup :=
    Draft.nodup_labels (Draft.nodup_ofCode code)
  rw [← Labels.address?_eq_some_iff_mem hkeys, Program.address?_ofCode_iff h]

theorem compile_labelled {name source : Bytes} {program : Program}
    (h : compile name source = .ok program) : program.Labelled := by
  obtain ⟨ps, hps, hdistinct, -, rfl⟩ := compile_eq_ok_iff.mp h
  have hnop : ∀ {n : Nat} {ins : Instruction}, (ps.map Phrase.instruction)[n]? = some ins →
      ins.op = .nop → ins.label ≠ [] ∧ ins = { op := .nop, label := ins.label } := by
    intro n ins hins hop
    obtain ⟨text, -, p, rfl, hsaid, -⟩ := hps.exists_says (List.mem_of_getElem? hins)
    exact Phrase.instruction_of_nop hsaid hop
  refine ⟨Draft.nodup_labels (Draft.nodup_ofCode _), fun hmem => ?_, fun {n ins} hcode hop => ?_⟩
  · obtain ⟨n, hn, ins, hins, hop, rfl⟩ := (Program.mem_labels_ofCode_iff hdistinct).mp hmem
    have hself := (hnop hins hop).2
    rw [hself] at hins
    exact ⟨n, hn, by simpa [Program.ofCode] using hins⟩
  · have hins : (ps.map Phrase.instruction)[n]? = some ins := by simpa [Program.ofCode] using hcode
    have hmem := (Program.mem_labels_ofCode_iff hdistinct).mpr ⟨n, rfl, ins, hins, hop, rfl⟩
    exact ⟨(hnop hins hop).1, hmem⟩

/-- The labels of a compiled program are in bijection with the instructions that define them; so
every jump of the program finds its label, and leads into the program. -/
theorem compile_labels_bijective {name source : Bytes} {program : Program}
    (h : compile name source = .ok program) :
    (program.labels.map Prod.fst).Nodup ∧
      Set.BijOn Prod.snd {entry | entry ∈ program.labels} program.places ∧
      (∀ label address, (label, address) ∈ program.labels →
        0 ≤ address ∧ address < program.size ∧
          program.code[address.toNat]? = some { op := .nop, label }) ∧
      (∀ (n : Nat) (ins : Instruction), program.code[n]? = some ins → ins.op = .nop →
        ins.label ≠ [] ∧ program.labels.address? ins.label = some (n : Int)) ∧
      (∀ ins ∈ program.code, ins.op.isJump = true →
        ins.label ∈ program.labels.map Prod.fst) ∧
      program.fault? = none := by
  have hlabelled := compile_labelled h
  have hsound := compile_sound h
  refine ⟨hlabelled.keys, hlabelled.bijOn, fun label address => hlabelled.bounds, ?_, ?_,
    hsound.fault?_eq_none⟩
  · intro n ins hcode hop
    obtain ⟨hne, hmem⟩ := hlabelled.place hcode hop
    exact ⟨hne, (Labels.address?_eq_some_iff_mem hlabelled.keys).mpr hmem⟩
  · intro ins hins hjump
    obtain ⟨n, place, haddress, -⟩ := hsound.jumps ins hins ins.label ⟨hjump, rfl⟩
    have hmem := (Labels.address?_eq_some_iff_mem hlabelled.keys).mp haddress
    exact List.mem_map_of_mem hmem

/-- A label that is used before it is defined and one that is never used. -/
theorem compile_labels_bijective_usedFirst :
    ∃ program,
      compile [] (utf8 "ビルへ泳いでいこう\n港に着いた\nビルに着いた") = .ok program ∧
        program.labels = [(utf8 "ビル", 2), (utf8 "港", 1)] ∧
        Set.BijOn Prod.snd {entry | entry ∈ program.labels} program.places ∧
        program.fault? = none := by
  have h : compile [] (utf8 "ビルへ泳いでいこう\n港に着いた\nビルに着いた") =
      .ok ⟨#[{ op := .jumpIfPositive, label := utf8 "ビル" }, { op := .nop, label := utf8 "港" },
        { op := .nop, label := utf8 "ビル" }], [(utf8 "ビル", 2), (utf8 "港", 1)]⟩ :=
    compile_of_toOption (by decide +kernel)
  obtain ⟨-, hbij, -, -, -, hfault⟩ := compile_labels_bijective h
  exact ⟨_, h, rfl, hbij, hfault⟩

end Sardine
