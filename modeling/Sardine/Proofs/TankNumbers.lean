import Sardine.Proofs.RoundTrip
import Sardine.Proofs.Diagnosis

/-! The numbers of tanks.
The language describes such a number as a string of digits whose value is that of a tank. A string
of more than four digits is refused whatever its value, so that leading zeros can be written up to
four digits only. For all other texts the description is right. -/
namespace Sardine

namespace Phrase

structure Numbers (text : Bytes) (n : Nat) : Prop where
  numeral : IsNumeral text
  value : Decimal.value text = n
  bound : n ≤ 2018

theorem tank?_eq_some_iff_numbers {text : Bytes} {n : Nat} :
    tank? text = some n ↔ Numbers text n ∧ text.length ≤ 4 := by
  rw [tank?_eq_some_iff]
  constructor
  · rintro ⟨htank, rfl⟩
    exact ⟨⟨htank.isNumeral, rfl, htank.bound⟩, htank.short⟩
  · rintro ⟨⟨hnumeral, rfl, hbound⟩, hshort⟩
    exact ⟨⟨hnumeral.nonempty, hshort, hnumeral.digits, hbound⟩, rfl⟩

theorem tank?_eq_none {text : Bytes} (h : ∀ n, ¬ Numbers text n) : tank? text = none := by
  cases htank : tank? text with
  | none => rfl
  | some n => exact absurd (tank?_eq_some_iff_numbers.mp htank).1 (h n)

end Phrase

namespace Draft

open Phrase

section Tank

variable {text : Bytes} (name : Bytes) (draft : Draft) (number : Nat)

theorem readLine_of_tank {n : Nat} (h : tank? text = some n) :
    draft.readLine name ⟨number, text ++ lookEnding⟩ =
      draft.emit { op := .setPointer, arg := n } := by
  have hnumeral := (tank?_eq_some_iff.mp h).1.isNumeral
  simp only [readLine, ofLine?_eq_some_iff.mpr hnumeral.says, h]

/-- A text whose number is not taken still takes an instruction. -/
theorem readLine_of_no_tank (hlooks : Says (text ++ lookEnding) (.lookInto text))
    (h : tank? text = none) :
    draft.readLine name ⟨number, text ++ lookEnding⟩ =
      (draft.complain ⟨name, number, text ++ lookEnding, .invalidTank text⟩).emit
        { op := .setPointer } := by
  simp only [readLine, ofLine?_eq_some_iff.mpr hlooks, h]

end Tank

theorem compile_single {name source : Bytes} {line : Source.Line}
    (h : Source.numberedLines source = [line]) :
    compile name source = (({} : Draft).readLine name line).finish name := by
  rw [compile, h]
  rfl

end Draft

/-- What the description of the numbers of tanks says about a text: which number it is, what becomes
of a line that looks into it, and of a source that has no other line. A line that has an earlier
form does not look into a tank. -/
structure TakenAsDescribed (text : Bytes) : Prop where
  number : ∀ n, Phrase.tank? text = some n ↔ Phrase.Numbers text n
  line : ∀ (name : Bytes) (draft : Draft) (number n : Nat), Phrase.Numbers text n →
    draft.readLine name ⟨number, text ++ Phrase.lookEnding⟩ =
      draft.emit { op := .setPointer, arg := n }
  objection : ∀ (name : Bytes) (draft : Draft) (number : Nat), draft.isFull = false →
    Phrase.Says (text ++ Phrase.lookEnding) (.lookInto text) → (∀ n, ¬ Phrase.Numbers text n) →
      (draft.readLine name ⟨number, text ++ Phrase.lookEnding⟩).complaints =
        draft.complaints ++ [⟨name, number, text ++ Phrase.lookEnding, .invalidTank text⟩]
  program : ∀ (name source : Bytes) (number n : Nat),
    Source.numberedLines source = [⟨number, text ++ Phrase.lookEnding⟩] → Phrase.Numbers text n →
      compile name source = .ok ⟨#[{ op := .setPointer, arg := n }], []⟩
  diagnosis : ∀ (name source : Bytes) (number : Nat),
    Source.numberedLines source = [⟨number, text ++ Phrase.lookEnding⟩] →
    Phrase.Says (text ++ Phrase.lookEnding) (.lookInto text) → (∀ n, ¬ Phrase.Numbers text n) →
      compile name source =
        .error [⟨name, number, text ++ Phrase.lookEnding, .invalidTank text⟩]
  message : (Complaint.invalidTank text).message =
    utf8 "invalid address " ++ Quoted.quote text ++ utf8 ", expected an integer in [0, 2018]"

/-- The number of a tank is taken as it is described, unless it has more than four digits and by the
description would be one. -/
theorem taken_as_described_iff (text : Bytes) :
    TakenAsDescribed text ↔ text.length ≤ 4 ∨ ∀ n, ¬ Phrase.Numbers text n := by
  constructor
  · intro h
    by_contra hnot
    simp only [not_or, not_forall, not_not] at hnot
    obtain ⟨hlong, n, hn⟩ := hnot
    exact hlong (Phrase.tank?_eq_some_iff_numbers.mp ((h.number n).mpr hn)).2
  · intro h
    have hnumber : ∀ n, Phrase.tank? text = some n ↔ Phrase.Numbers text n := by
      intro n
      rw [Phrase.tank?_eq_some_iff_numbers]
      refine ⟨fun htank => htank.1, fun hn => ⟨hn, ?_⟩⟩
      exact h.resolve_right fun hnone => hnone n hn
    constructor
    case number => exact hnumber
    case line =>
      intro name draft number n hn
      exact draft.readLine_of_tank name number ((hnumber n).mpr hn)
    case objection =>
      intro name draft number hroom hlooks hnone
      rw [draft.readLine_of_no_tank name number hlooks (Phrase.tank?_eq_none hnone)]
      simp [Draft.emit, Draft.complain, hroom]
    case program =>
      intro name source number n hlines hn
      rw [Draft.compile_single hlines, Draft.readLine_of_tank name {} number ((hnumber n).mpr hn)]
      simp [Draft.finish, Draft.missing, Draft.labels, Draft.emit]
    case diagnosis =>
      intro name source number hlines hlooks hnone
      rw [Draft.compile_single hlines,
        Draft.readLine_of_no_tank name {} number hlooks (Phrase.tank?_eq_none hnone)]
      have hmissing : Draft.missing [] = [] := by simp [Draft.missing]
      exact Draft.finish_eq_error (by simp [Draft.emit, Draft.complain, Draft.isFull,
        Draft.mostComplaints]) (Or.inr hmissing) name
    case message =>
      have hlast : Decimal.digits Phrase.lastTank = utf8 "2018" := by decide +kernel
      have hend : utf8 ", expected an integer in [0, " ++ utf8 "2018" ++ utf8 "]" =
          utf8 ", expected an integer in [0, 2018]" := by decide +kernel
      rw [Complaint.message, hlast, List.append_assoc, List.append_assoc, ← hend]
      simp

/-- Five digits, and one tank. -/
theorem leading_zeros_refused :
    Phrase.Numbers (utf8 "00001") 1 ∧ Phrase.tank? (utf8 "00001") = none ∧
      compile (utf8 "t") (utf8 "00001番目の水槽をのぞく") =
        .error [⟨utf8 "t", 1, utf8 "00001番目の水槽をのぞく", .invalidTank (utf8 "00001")⟩] := by
  refine ⟨⟨⟨by decide +kernel, by decide +kernel⟩, by decide +kernel, by decide⟩, ?_, ?_⟩
  · decide +kernel
  · decide +kernel

end Sardine
