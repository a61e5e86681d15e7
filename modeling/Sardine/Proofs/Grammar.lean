import Sardine.Phrase
import Mathlib.Data.List.Basic
import Mathlib.Data.List.Nodup

/-! The grammar of a line.
A line may have several forms at once, since a label is any text; the first form in the order of
the table is the one that counts. -/
namespace Sardine.Phrase

inductive Form : Bytes → Phrase → Prop
  | plain {line : Bytes} {op : Opcode} : (line, op) ∈ plainPhrases → Form line (.plain op)
  | swimTo {label : Bytes} : label ≠ [] → Form (label ++ swimEnding) (.swimTo label)
  | arriveAt {label : Bytes} : label ≠ [] → Form (label ++ arrivalEnding) (.arriveAt label)
  | ifNoneGoTo {label : Bytes} : label ≠ [] → Form (ifNoneOpening ++ label) (.ifNoneGoTo label)
  | lookInto {digits : Bytes} : digits ≠ [] → Form (digits ++ lookEnding) (.lookInto digits)

def rank : Phrase → Nat
  | plain _ => 0
  | swimTo _ => 1
  | arriveAt _ => 2
  | ifNoneGoTo _ => 3
  | lookInto _ => 4

/-- The form of a line that counts. -/
structure Says (line : Bytes) (p : Phrase) : Prop where
  form : Form line p
  first : ∀ q, Form line q → p.rank ≤ q.rank

theorem before?_eq_some_iff {ending line text : Bytes} :
    before? ending line = some text ↔ text ≠ [] ∧ text ++ ending = line := by
  simp [before?, Option.filter_eq_some_iff, and_comm]

theorem after?_eq_some_iff {opening line text : Bytes} :
    after? opening line = some text ↔ text ≠ [] ∧ opening ++ text = line := by
  simp [after?, Option.filter_eq_some_iff, and_comm]

theorem nodup_plainPhrases : (plainPhrases.map Prod.fst).Nodup := by decide +kernel

theorem lookup_eq_some_iff_mem {table : List (Bytes × Opcode)} (h : (table.map Prod.fst).Nodup)
    {line : Bytes} {op : Opcode} : table.lookup line = some op ↔ (line, op) ∈ table := by
  induction table with
  | nil => simp
  | cons entry table ih =>
    obtain ⟨text, code⟩ := entry
    simp only [List.map_cons, List.nodup_cons] at h
    by_cases heq : line = text
    · subst heq
      have hnot : (line, op) ∉ table := fun hmem => h.1 (List.mem_map_of_mem hmem)
      simp [hnot, eq_comm]
    · have hb : (line == text) = false := by simpa using heq
      simpa [List.lookup_cons, hb, heq] using ih h.2

theorem Form.mem_plainPhrases {line : Bytes} {op : Opcode} (h : Form line (.plain op)) :
    (line, op) ∈ plainPhrases := by
  cases h
  assumption

theorem form_plain_iff {line : Bytes} {op : Opcode} :
    Form line (.plain op) ↔ plainPhrases.lookup line = some op := by
  rw [lookup_eq_some_iff_mem nodup_plainPhrases]
  exact ⟨Form.mem_plainPhrases, Form.plain⟩

theorem form_swimTo_iff {line label : Bytes} :
    Form line (.swimTo label) ↔ before? swimEnding line = some label := by
  rw [before?_eq_some_iff]
  exact ⟨fun h => by cases h; exact ⟨‹_›, rfl⟩, fun h => h.2 ▸ Form.swimTo h.1⟩

theorem form_arriveAt_iff {line label : Bytes} :
    Form line (.arriveAt label) ↔ before? arrivalEnding line = some label := by
  rw [before?_eq_some_iff]
  exact ⟨fun h => by cases h; exact ⟨‹_›, rfl⟩, fun h => h.2 ▸ Form.arriveAt h.1⟩

theorem form_ifNoneGoTo_iff {line label : Bytes} :
    Form line (.ifNoneGoTo label) ↔ after? ifNoneOpening line = some label := by
  rw [after?_eq_some_iff]
  exact ⟨fun h => by cases h; exact ⟨‹_›, rfl⟩, fun h => h.2 ▸ Form.ifNoneGoTo h.1⟩

theorem form_lookInto_iff {line digits : Bytes} :
    Form line (.lookInto digits) ↔ before? lookEnding line = some digits := by
  rw [before?_eq_some_iff]
  exact ⟨fun h => by cases h; exact ⟨‹_›, rfl⟩, fun h => h.2 ▸ Form.lookInto h.1⟩

theorem Form.unique {line : Bytes} {p q : Phrase} (hp : Form line p) (hq : Form line q)
    (h : p.rank = q.rank) : p = q := by
  cases p <;> cases q <;> simp [rank] at h
  case plain op op' => simpa [form_plain_iff.mp hp] using form_plain_iff.mp hq
  case swimTo a b => simpa [form_swimTo_iff.mp hp] using form_swimTo_iff.mp hq
  case arriveAt a b => simpa [form_arriveAt_iff.mp hp] using form_arriveAt_iff.mp hq
  case ifNoneGoTo a b => simpa [form_ifNoneGoTo_iff.mp hp] using form_ifNoneGoTo_iff.mp hq
  case lookInto a b => simpa [form_lookInto_iff.mp hp] using form_lookInto_iff.mp hq

theorem says_of_ofLine? {line : Bytes} {p : Phrase} (h : ofLine? line = some p) : Says line p := by
  unfold ofLine? at h
  cases h0 : plainPhrases.lookup line with
  | some op =>
    obtain rfl : plain op = p := by simpa [h0] using h
    exact ⟨form_plain_iff.mpr h0, fun q _ => Nat.zero_le _⟩
  | none =>
    cases h1 : before? swimEnding line with
    | some label =>
      obtain rfl : swimTo label = p := by simpa [h0, h1] using h
      refine ⟨form_swimTo_iff.mpr h1, fun q hq => ?_⟩
      cases q <;> simp_all [rank, form_plain_iff]
    | none =>
      cases h2 : before? arrivalEnding line with
      | some label =>
        obtain rfl : arriveAt label = p := by simpa [h0, h1, h2] using h
        refine ⟨form_arriveAt_iff.mpr h2, fun q hq => ?_⟩
        cases q <;> simp_all [rank, form_plain_iff, form_swimTo_iff]
      | none =>
        cases h3 : after? ifNoneOpening line with
        | some label =>
          obtain rfl : ifNoneGoTo label = p := by simpa [h0, h1, h2, h3] using h
          refine ⟨form_ifNoneGoTo_iff.mpr h3, fun q hq => ?_⟩
          cases q <;> simp_all [rank, form_plain_iff, form_swimTo_iff, form_arriveAt_iff]
        | none =>
          obtain ⟨digits, h4, rfl⟩ : ∃ digits, before? lookEnding line = some digits ∧
              lookInto digits = p := by simpa [h0, h1, h2, h3] using h
          refine ⟨form_lookInto_iff.mpr h4, fun q hq => ?_⟩
          cases q <;> simp_all [rank, form_plain_iff, form_swimTo_iff, form_arriveAt_iff,
            form_ifNoneGoTo_iff]

theorem ofLine?_isSome_of_form {line : Bytes} {p : Phrase} (h : Form line p) :
    (ofLine? line).isSome := by
  unfold ofLine?
  cases p with
  | plain op => simp [form_plain_iff.mp h]
  | swimTo label => simp [form_swimTo_iff.mp h]
  | arriveAt label => simp [form_arriveAt_iff.mp h]
  | ifNoneGoTo label => simp [form_ifNoneGoTo_iff.mp h]
  | lookInto digits => simp [form_lookInto_iff.mp h]

theorem ofLine?_eq_some_iff {line : Bytes} {p : Phrase} : ofLine? line = some p ↔ Says line p := by
  refine ⟨says_of_ofLine?, fun h => ?_⟩
  obtain ⟨q, hq⟩ := Option.isSome_iff_exists.mp (ofLine?_isSome_of_form h.form)
  have hfirst := says_of_ofLine? hq
  have hrank : p.rank = q.rank := Nat.le_antisymm (h.first q hfirst.form) (hfirst.first p h.form)
  rw [hq, h.form.unique hfirst.form hrank]

theorem Says.unique {line : Bytes} {p q : Phrase} (hp : Says line p) (hq : Says line q) :
    p = q := by
  rw [← ofLine?_eq_some_iff] at hp hq
  exact Option.some.inj (hp.symm.trans hq)

structure IsNumeral (text : Bytes) : Prop where
  nonempty : text ≠ []
  digits : ∀ b ∈ text, 48 ≤ b ∧ b ≤ 57

/-- The number of a tank as it may be written: up to four digits, leading zeros included. -/
structure IsTank (text : Bytes) : Prop where
  nonempty : text ≠ []
  short : text.length ≤ 4
  digits : ∀ b ∈ text, 48 ≤ b ∧ b ≤ 57
  bound : Decimal.value text ≤ 2018

theorem IsTank.isNumeral {text : Bytes} (h : IsTank text) : IsNumeral text := ⟨h.nonempty, h.digits⟩

theorem length_digits_lastTank : (Decimal.digits lastTank).length = 4 := by decide +kernel

theorem tank?_eq_some_iff {text : Bytes} {n : Nat} :
    tank? text = some n ↔ IsTank text ∧ Decimal.value text = n := by
  have hall : text.all Decimal.isDigit = true ↔ ∀ b ∈ text, 48 ≤ b ∧ b ≤ 57 := by
    simp [Decimal.isDigit]
  rw [tank?, length_digits_lastTank]
  constructor
  · intro h
    split at h
    · simp at h
    · rename_i hshape
      split at h
      · rename_i hvalue
        simp only [Bool.or_eq_true, List.isEmpty_iff, decide_eq_true_eq, not_or,
          Nat.not_lt] at hshape
        simp only [Bool.and_eq_true, hall, decide_eq_true_eq] at hvalue
        exact ⟨⟨hshape.1, hshape.2, hvalue.1, hvalue.2⟩, Option.some.inj h⟩
      · simp at h
  · rintro ⟨h, rfl⟩
    have hdigits := hall.mpr h.digits
    have hbound : Decimal.value text ≤ lastTank := h.bound
    simp [h.nonempty, h.short, hdigits, hbound]

/-- A phrase that can be compiled: a tank that is looked into has to exist. -/
def IsValid : Phrase → Prop
  | lookInto digits => IsTank digits
  | _ => True

def instruction : Phrase → Instruction
  | plain op => { op }
  | swimTo label => { op := .jumpIfPositive, label }
  | arriveAt label => { op := .nop, label }
  | ifNoneGoTo label => { op := .jumpIfZero, label }
  | lookInto digits => { op := .setPointer, arg := Decimal.value digits }

end Sardine.Phrase
