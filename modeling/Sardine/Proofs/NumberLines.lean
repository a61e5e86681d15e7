import Sardine.Proofs.RoundTrip
import Sardine.Proofs.Supply

/-! Numbers on lines of their own.
A number is read from the first line of the bytes to come. The line is taken with its end, which is
LF, or CR together with whatever byte stands behind it, and nothing more is taken. A number that has
been written is read back, unless it is negative: a sign is not part of a number that is read. -/
namespace Sardine

def firstLine (bytes : Bytes) : Bytes := bytes.takeWhile fun b => ¬ Source.EndsLine b

/-- What is left behind the first line: an LF goes with the line, and so does a CR, with one more
byte. -/
def behindLine (bytes : Bytes) : Bytes :=
  match bytes.dropWhile fun b => ¬ Source.EndsLine b with
  | [] => []
  | b :: rest => if b = Bytes.newline then rest else rest.tail

section Lines

theorem line_cons {b : UInt8} (h : ¬ Source.EndsLine b) (bytes : Bytes) :
    firstLine (b :: bytes) = b :: firstLine bytes ∧
      behindLine (b :: bytes) = behindLine bytes := by
  simp [firstLine, behindLine, h]

theorem line_newline (bytes : Bytes) :
    firstLine (Bytes.newline :: bytes) = [] ∧ behindLine (Bytes.newline :: bytes) = bytes := by
  simp [firstLine, behindLine, Source.endsLine_newline]

theorem line_return (bytes : Bytes) :
    firstLine (Bytes.carriageReturn :: bytes) = [] ∧
      behindLine (Bytes.carriageReturn :: bytes) = bytes.tail := by
  have hends : Source.EndsLine Bytes.carriageReturn := Or.inr rfl
  have hne : ¬ Bytes.carriageReturn = Bytes.newline := by decide
  simp [firstLine, behindLine, hends, hne]

theorem line_append {line : Bytes} (h : Source.Unbroken line) (bytes : Bytes) :
    firstLine (line ++ bytes) = line ++ firstLine bytes ∧
      behindLine (line ++ bytes) = behindLine bytes := by
  induction line with
  | nil => exact ⟨rfl, rfl⟩
  | cons b line ih =>
    obtain ⟨htoken, hrest⟩ := ih fun c hc => h c (List.mem_cons_of_mem _ hc)
    obtain ⟨htoken', hrest'⟩ := line_cons (h b List.mem_cons_self) (line ++ bytes)
    rw [List.cons_append, htoken', hrest', htoken, hrest]
    exact ⟨rfl, rfl⟩

end Lines

namespace Wait

/-- Behind a CR one more byte is taken, if there is one. -/
theorem through_afterReturn (token bytes : Bytes) :
    (afterReturn token).through bytes = (ofToken token, bytes.tail) := by
  cases bytes <;> rfl

theorem through_number (token bytes : Bytes) :
    (number token).through bytes = (ofToken (token ++ firstLine bytes), behindLine bytes) := by
  induction bytes generalizing token with
  | nil =>
    rw [firstLine, List.takeWhile_nil, List.append_nil]
    rfl
  | cons b bytes ih =>
    by_cases hnewline : b = Bytes.newline
    · subst hnewline
      obtain ⟨htoken, hrest⟩ := line_newline bytes
      rw [htoken, hrest, List.append_nil, through_of_done (by rw [accept, if_pos rfl])]
    · by_cases hreturn : b = Bytes.carriageReturn
      · subst hreturn
        obtain ⟨htoken, hrest⟩ := line_return bytes
        rw [htoken, hrest, List.append_nil,
          through_of_more (by rw [accept, if_neg hnewline, if_pos rfl]), through_afterReturn]
      · have hgoes : ¬ Source.EndsLine b := fun hends => hends.elim hnewline hreturn
        obtain ⟨htoken, hrest⟩ := line_cons hgoes bytes
        rw [htoken, hrest, through_of_more (by rw [accept, if_neg hnewline, if_neg hreturn]), ih,
          List.append_assoc, List.singleton_append]

end Wait

theorem Cell.ofDigits?_eq_some_iff {token : Bytes} {v : Cell} :
    ofDigits? token = some v ↔ Phrase.IsNumeral token ∧ v.toInt = Decimal.value token := by
  have hall : token.all Decimal.isDigit = true ↔ ∀ b ∈ token, 48 ≤ b ∧ b ≤ 57 := by
    simp [Decimal.isDigit]
  have hbound : Nat.pow 2 63 = 2 ^ 63 := rfl
  rw [ofDigits?, hbound]
  constructor
  · intro h
    split at h
    · simp at h
    · rename_i hshape
      split at h
      · rename_i hfits
        simp only [Bool.or_eq_true, List.isEmpty_iff, Bool.not_eq_true', not_or,
          Bool.not_eq_false] at hshape
        obtain rfl : Int64.ofNat (Decimal.value token) = v := Option.some.inj h
        exact ⟨⟨hshape.1, hall.mp hshape.2⟩, Int64.toInt_ofNat_of_lt hfits⟩
      · simp at h
  · rintro ⟨hnumeral, hvalue⟩
    have hfits : Decimal.value token < 2 ^ 63 := by
      have hlt := v.toInt_lt
      omega
    have hcell : Int64.ofNat (Decimal.value token) = v := by
      rw [← Int64.toInt_inj, Int64.toInt_ofNat_of_lt hfits, hvalue]
    have hshape : (token.isEmpty || !token.all Decimal.isDigit) = false := by
      simp [hnumeral.nonempty, hall.mpr hnumeral.digits]
    rw [hshape, if_neg Bool.false_ne_true, if_pos hfits, hcell]

section Tokens

variable {token : Bytes}

theorem Wait.ofToken_of_numeral {v : Cell} (h : Phrase.IsNumeral token)
    (hvalue : v.toInt = Decimal.value token) : Wait.ofToken token = .ok v := by
  rw [Wait.ofToken, Cell.ofDigits?_eq_some_iff.mpr ⟨h, hvalue⟩]

theorem Wait.ofToken_of_not_numeral
    (h : ¬ (Phrase.IsNumeral token ∧ Decimal.value token < 2 ^ 63)) :
    Wait.ofToken token = .error token := by
  cases hdigits : Cell.ofDigits? token with
  | none => rw [Wait.ofToken, hdigits]
  | some v =>
    obtain ⟨hnumeral, hvalue⟩ := Cell.ofDigits?_eq_some_iff.mp hdigits
    have hlt := v.toInt_lt
    exact absurd ⟨hnumeral, by omega⟩ h

end Tokens

namespace Machine

/-- What `GETN` does, given the bytes to come. -/
theorem getNumber_endsReading {m : Machine} {ins : Instruction} (hdue : m.due? = some ins)
    (hop : ins.op = .getNumber) {bytes : Bytes} {arrivals : List Queue}
    (hsupplies : m.channels.input.Supplies bytes arrivals)
    (hflush : m.channels.input ≠ .absent →
      m.channels.output.CanFlush ((Wait.number []).further bytes + 1)) :
    m.attempt.EndsReading (m.note ins) arrivals
      (Wait.ofToken (firstLine bytes), behindLine bytes) := by
  have hreads : waitOf? ins.op = some (.number []) := by rw [hop]; rfl
  have hends := attempt_endsReading hdue hreads hsupplies hflush
  rwa [Wait.through_number, List.nil_append] at hends

end Machine

/-- How a number may end, given what stands behind it: with LF, with CR LF, or with the data. -/
def EndsNumber (ending rest : Bytes) : Prop :=
  ending = [Bytes.newline] ∨ ending = [Bytes.carriageReturn, Bytes.newline] ∨
    ending = [] ∧ rest = []

theorem line_ended {line ending rest : Bytes} (hline : Source.Unbroken line)
    (hends : EndsNumber ending rest) :
    firstLine (line ++ (ending ++ rest)) = line ∧ behindLine (line ++ (ending ++ rest)) = rest := by
  obtain ⟨htoken, hrest⟩ := line_append hline (ending ++ rest)
  rw [htoken, hrest]
  rcases hends with rfl | rfl | ⟨rfl, rfl⟩
  · obtain ⟨hempty, hbehind⟩ := line_newline rest
    simp [hempty, hbehind]
  · obtain ⟨hempty, hbehind⟩ := line_return (Bytes.newline :: rest)
    simp [hempty, hbehind]
  · simp [firstLine, behindLine]

namespace Cell

theorem unbroken_text (v : Cell) : Source.Unbroken v.text := Decimal.unbroken_ofInt v.toInt

theorem text_of_nonneg {v : Cell} (h : 0 ≤ v) :
    Phrase.IsNumeral v.text ∧ v.toInt = Decimal.value v.text := by
  have hnonneg : 0 ≤ v.toInt := Int64.le_iff_toInt_le.mp h
  have htext : v.text = Decimal.digits v.toInt.natAbs := by
    rw [text, Decimal.ofInt, if_neg (by omega)]
  rw [htext, Decimal.value_digits]
  exact ⟨⟨Decimal.digits_ne_nil _, fun _ => Decimal.bounds_of_mem_digits⟩, by omega⟩

theorem text_of_neg {v : Cell} (h : v < 0) : ¬ Phrase.IsNumeral v.text := by
  have hneg : v.toInt < 0 := Int64.lt_iff_toInt_lt.mp h
  intro hnumeral
  have hsign : (45 : UInt8) ∈ v.text := by simp [text, Decimal.ofInt, hneg]
  exact absurd (hnumeral.digits 45 hsign).1 (by decide)

end Cell

namespace Machine

theorem putNumber_writes {m : Machine} {ins : Instruction} (hdue : m.due? = some ins)
    (hop : ins.op = .putNumber) {buffer : Bool} (hreliable : m.channels.output.Reliable buffer) :
    ∃ written, m.attempt = .next written ∧
      written.channels.output.content = m.channels.output.content ++ m.current.text := by
  have hwritten : ins.written? (m.note ins).current = some m.current.text := by
    rw [Instruction.written?, hop, current_note]
  obtain ⟨output, hemit, -, hcontent⟩ := Channels.emit_of_reliable hreliable m.current.text
  rw [attempt_of_due hdue, execute_of_written hwritten, channels_note, hemit]
  exact ⟨_, rfl, hcontent⟩

end Machine

end Sardine
