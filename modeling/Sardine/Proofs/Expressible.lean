import Sardine.Proofs.RoundTrip
import Mathlib.Data.List.Infix

/-! Which instructions can be said.
Every instruction has a phrase, but a line with that phrase need not be read as the instruction: a
label may be empty, the number of a tank may be out of range, and a label to which a jump goes if
the cell is zero may end like a phrase of another form, which is then read instead. -/
namespace Sardine

namespace Phrase

/-- An ending that stands behind an opening and a text ends the text, unless it can begin inside the
opening. -/
theorem suffix_of_suffix_append {ending opening text : Bytes}
    (hapart : ∀ piece ∈ ending.inits, piece ≠ [] → ¬ piece <:+ opening)
    (h : ending <:+ opening ++ text) : ending <:+ text := by
  obtain ⟨front, heq⟩ := h
  rcases List.append_eq_append_iff.mp heq with ⟨piece, hopening, hending⟩ | ⟨more, -, htext⟩
  · by_cases hpiece : piece = []
    · rw [hending, hpiece, List.nil_append]
    · have hinit : piece ∈ ending.inits := (List.mem_inits piece ending).mpr ⟨text, hending.symm⟩
      exact absurd ⟨front, hopening.symm⟩ (hapart piece hinit hpiece)
  · exact ⟨more, htext.symm⟩

theorem says_swimTo_iff {label : Bytes} :
    Says (label ++ swimEnding) (.swimTo label) ↔ label ≠ [] := by
  have hplain : ∀ entry ∈ plainPhrases, ¬ swimEnding <:+ entry.1 := by decide +kernel
  constructor
  · intro h
    exact (before?_eq_some_iff.mp (form_swimTo_iff.mp h.form)).1
  · intro h
    refine ⟨Form.swimTo h, fun q hq => ?_⟩
    cases q with
    | plain op => exact absurd (List.suffix_append label _) (hplain _ hq.mem_plainPhrases)
    | _ => simp [rank]

theorem says_arriveAt_iff {label : Bytes} :
    Says (label ++ arrivalEnding) (.arriveAt label) ↔ label ≠ [] := by
  have hplain : ∀ entry ∈ plainPhrases, ¬ arrivalEnding <:+ entry.1 := by decide +kernel
  have hswim : ¬ arrivalEnding <:+ swimEnding := by decide +kernel
  constructor
  · intro h
    exact (before?_eq_some_iff.mp (form_arriveAt_iff.mp h.form)).1
  · intro h
    refine ⟨Form.arriveAt h, fun q hq => ?_⟩
    cases q with
    | plain op => exact absurd (List.suffix_append label _) (hplain _ hq.mem_plainPhrases)
    | swimTo other =>
      have heq := (before?_eq_some_iff.mp (form_swimTo_iff.mp hq)).2
      have hsuffix : arrivalEnding <:+ swimEnding :=
        List.suffix_of_suffix_length_le (List.suffix_append label _) ⟨other, heq⟩
          (by decide +kernel)
      exact absurd hsuffix hswim
    | _ => simp [rank]

/-- The two forms that end in fixed words come before the one that only begins with them. -/
theorem says_ifNoneGoTo_iff {label : Bytes} :
    Says (ifNoneOpening ++ label) (.ifNoneGoTo label) ↔
      label ≠ [] ∧ ¬ swimEnding <:+ label ∧ ¬ arrivalEnding <:+ label := by
  have hplain : ∀ entry ∈ plainPhrases, ¬ ifNoneOpening <+: entry.1 := by decide +kernel
  have hswim : ∀ piece ∈ swimEnding.inits, piece ≠ [] → ¬ piece <:+ ifNoneOpening := by
    decide +kernel
  have harrival : ∀ piece ∈ arrivalEnding.inits, piece ≠ [] → ¬ piece <:+ ifNoneOpening := by
    decide +kernel
  have hopening : ifNoneOpening ≠ [] := by decide +kernel
  constructor
  · intro h
    refine ⟨(after?_eq_some_iff.mp (form_ifNoneGoTo_iff.mp h.form)).1, ?_, ?_⟩
    · rintro ⟨front, rfl⟩
      have hother : Form (ifNoneOpening ++ (front ++ swimEnding))
          (.swimTo (ifNoneOpening ++ front)) := by
        rw [← List.append_assoc]
        exact Form.swimTo (List.append_ne_nil_of_left_ne_nil hopening front)
      exact absurd (h.first _ hother) (by simp [rank])
    · rintro ⟨front, rfl⟩
      have hother : Form (ifNoneOpening ++ (front ++ arrivalEnding))
          (.arriveAt (ifNoneOpening ++ front)) := by
        rw [← List.append_assoc]
        exact Form.arriveAt (List.append_ne_nil_of_left_ne_nil hopening front)
      exact absurd (h.first _ hother) (by simp [rank])
  · rintro ⟨hne, hnotSwim, hnotArrival⟩
    refine ⟨Form.ifNoneGoTo hne, fun q hq => ?_⟩
    cases q with
    | plain op => exact absurd (List.prefix_append _ label) (hplain _ hq.mem_plainPhrases)
    | swimTo other =>
      have heq := (before?_eq_some_iff.mp (form_swimTo_iff.mp hq)).2
      exact absurd (suffix_of_suffix_append hswim ⟨other, heq⟩) hnotSwim
    | arriveAt other =>
      have heq := (before?_eq_some_iff.mp (form_arriveAt_iff.mp hq)).2
      exact absurd (suffix_of_suffix_append harrival ⟨other, heq⟩) hnotArrival
    | _ => simp [rank]

end Phrase

namespace Instruction

/-- An assigned operation, with a label and an argument only where it looks at them. -/
structure IsNormal (ins : Instruction) : Prop where
  assigned : ins.op ∈ Opcode.assigned
  label : ins.op ≠ .nop → ins.op ≠ .jumpIfPositive → ins.op ≠ .jumpIfZero → ins.label = []
  arg : ins.op ≠ .setPointer → ins.arg = 0

/-- What an instruction has to be like for its phrase to say it. -/
def IsExpressible (ins : Instruction) : Prop :=
  match ins.op with
  | .nop => ins.label ≠ []
  | .jumpIfPositive => ins.label ≠ []
  | .jumpIfZero =>
    ins.label ≠ [] ∧ ¬ Phrase.swimEnding <:+ ins.label ∧ ¬ Phrase.arrivalEnding <:+ ins.label
  | .setPointer => 0 ≤ ins.arg ∧ ins.arg ≤ 2018
  | _ => True

def IsSaidBy (ins : Instruction) (line : Bytes) : Prop :=
  ∃ p, Phrase.Says line p ∧ p.IsValid ∧ p.instruction = ins

end Instruction

theorem Draft.readLine_new_iff {name : Bytes} {line : Source.Line} {ins : Instruction} :
    ((({} : Draft).readLine name line).code = #[ins] ∧
      (({} : Draft).readLine name line).complaints = []) ↔ ins.IsSaidBy line.text := by
  have hnew : ∀ label, ({} : Draft).definition? label = none := fun _ => rfl
  have hcomplaints : (({} : Draft).readLine name line).complaints = [] ↔
      ∃ p, Phrase.Says line.text p ∧ p.IsValid := by
    rw [complaints_readLine (by decide)]
    simp [objection?_eq_none_iff, hnew]
  have hcode : ∀ p, Phrase.Says line.text p → p.IsValid →
      (({} : Draft).readLine name line).code = #[p.instruction] := by
    intro p hp hvalid
    rw [readLine_eq_place hp hvalid fun label _ => hnew label]
    rfl
  constructor
  · rintro ⟨hins, hnil⟩
    obtain ⟨p, hp, hvalid⟩ := hcomplaints.mp hnil
    have hsame := (hcode p hp hvalid).symm.trans hins
    exact ⟨p, hp, hvalid, by simpa using hsame⟩
  · rintro ⟨p, hp, hvalid, rfl⟩
    exact ⟨hcode p hp hvalid, hcomplaints.mpr ⟨p, hp, hvalid⟩⟩

namespace Instruction

theorem mem_plainPhrases_of_assigned : ∀ op ∈ Opcode.assigned, op ≠ .nop → op ≠ .jumpIfPositive →
    op ≠ .jumpIfZero → op ≠ .setPointer →
      (({ op } : Instruction).phrase, op) ∈ Phrase.plainPhrases := by
  decide +kernel

theorem not_parametrized_of_mem_plainPhrases : ∀ entry ∈ Phrase.plainPhrases,
    entry.2 ≠ .nop ∧ entry.2 ≠ .jumpIfPositive ∧ entry.2 ≠ .jumpIfZero ∧
      entry.2 ≠ .setPointer := by
  decide +kernel

theorem IsSaidBy.isExpressible {ins : Instruction} (h : ins.IsSaidBy ins.phrase) :
    ins.IsExpressible := by
  obtain ⟨p, hp, hvalid, rfl⟩ := h
  cases p with
  | plain op =>
    obtain ⟨hnop, hswim, hifNone, hpoint⟩ :=
      not_parametrized_of_mem_plainPhrases _ hp.form.mem_plainPhrases
    cases op with
    | nop => exact absurd rfl hnop
    | jumpIfPositive => exact absurd rfl hswim
    | jumpIfZero => exact absurd rfl hifNone
    | setPointer => exact absurd rfl hpoint
    | _ => trivial
  | swimTo label => exact Phrase.says_swimTo_iff.mp hp
  | arriveAt label => exact Phrase.says_arriveAt_iff.mp hp
  | ifNoneGoTo label => exact Phrase.says_ifNoneGoTo_iff.mp hp
  | lookInto digits =>
    have hbound : Decimal.value digits ≤ 2018 := hvalid.bound
    simp only [IsExpressible, Phrase.instruction]
    omega

theorem IsExpressible.isSaidBy {ins : Instruction} (h : ins.IsExpressible)
    (hnormal : ins.IsNormal) : ins.IsSaidBy ins.phrase := by
  obtain ⟨op, label, arg⟩ := ins
  obtain ⟨hassigned, hlabel, harg⟩ := hnormal
  by_cases hnop : op = .nop
  · subst hnop
    obtain rfl : arg = 0 := harg (by simp)
    exact ⟨.arriveAt label, Phrase.says_arriveAt_iff.mpr h, trivial, rfl⟩
  by_cases hswim : op = .jumpIfPositive
  · subst hswim
    obtain rfl : arg = 0 := harg (by simp)
    exact ⟨.swimTo label, Phrase.says_swimTo_iff.mpr h, trivial, rfl⟩
  by_cases hifNone : op = .jumpIfZero
  · subst hifNone
    obtain rfl : arg = 0 := harg (by simp)
    exact ⟨.ifNoneGoTo label, Phrase.says_ifNoneGoTo_iff.mpr h, trivial, rfl⟩
  obtain rfl : label = [] := hlabel hnop hswim hifNone
  by_cases hpoint : op = .setPointer
  · subst hpoint
    obtain ⟨hnonneg, hle⟩ : 0 ≤ arg ∧ arg ≤ 2018 := h
    obtain ⟨n, rfl⟩ := Int.eq_ofNat_of_zero_le hnonneg
    have htank := Phrase.isTank_digits (show n ≤ 2018 by omega)
    have hphrase := Phrase.phrase_lookInto (Decimal.digits n)
    simp only [Phrase.instruction, Decimal.value_digits] at hphrase
    refine ⟨.lookInto (Decimal.digits n), ?_, htank, ?_⟩
    · rw [hphrase]
      exact htank.isNumeral.says
    · simp [Phrase.instruction]
  · obtain rfl : arg = 0 := harg hpoint
    have hmem := mem_plainPhrases_of_assigned op hassigned hnop hswim hifNone hpoint
    exact ⟨.plain op, ⟨Phrase.Form.plain hmem, fun _ _ => Nat.zero_le _⟩, trivial, rfl⟩

end Instruction

/-- The phrase of an instruction is read back as that instruction, and without a complaint, exactly
if the instruction can be said. -/
theorem phrase_read_back_iff {ins : Instruction} (h : ins.IsNormal) (name : Bytes) (number : Nat) :
    ((({} : Draft).readLine name ⟨number, ins.phrase⟩).code = #[ins] ∧
      (({} : Draft).readLine name ⟨number, ins.phrase⟩).complaints = []) ↔ ins.IsExpressible := by
  rw [Draft.readLine_new_iff]
  exact ⟨fun hsaid => hsaid.isExpressible, fun hexpressible => hexpressible.isSaidBy h⟩

/-- A line can arrive at this label, but none can say that it is gone to if the cell is zero. -/
theorem phrase_read_back_iff_unreachableLabel :
    let label := utf8 "港に着いた"
    let arrives : Instruction := { op := .nop, label }
    let jumps : Instruction := { op := .jumpIfZero, label }
    (arrives.IsNormal ∧ (({} : Draft).readLine [] ⟨1, arrives.phrase⟩).code = #[arrives] ∧
        (({} : Draft).readLine [] ⟨1, arrives.phrase⟩).complaints = []) ∧
      jumps.IsNormal ∧ ¬ ((({} : Draft).readLine [] ⟨1, jumps.phrase⟩).code = #[jumps] ∧
        (({} : Draft).readLine [] ⟨1, jumps.phrase⟩).complaints = []) := by
  intro label arrives jumps
  have harrives : arrives.IsNormal := ⟨by decide, by simp [arrives], by simp [arrives]⟩
  have hjumps : jumps.IsNormal := ⟨by decide, by simp [jumps], by simp [jumps]⟩
  have hlabel : label ≠ [] := by decide +kernel
  have hending : Phrase.arrivalEnding <:+ label := by decide +kernel
  refine ⟨⟨harrives, (phrase_read_back_iff harrives [] 1).mpr hlabel⟩, hjumps, fun hback => ?_⟩
  obtain ⟨-, -, hnot⟩ := (phrase_read_back_iff hjumps [] 1).mp hback
  exact hnot hending

end Sardine
