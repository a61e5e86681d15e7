import Sardine.Proofs.Registers
import Mathlib.Data.Rat.Floor

/-! The remainder that `DIV` stores.
The remainder toward zero is moved up by the divisor and reduced once more. As long as the sum fits
a cell, this is the remainder that goes with rounding down. Where it does not fit, the sum changes
its sign by wrapping around, and then what is stored lies on the wrong side of zero. -/
namespace Sardine

namespace Remainder

theorem tmod_add_tmod_of_pos (a : Int) {b : Int} (hb : 0 < b) :
    (a.tmod b + b).tmod b = a.fmod b := by
  have hlow := Int.lt_tmod_of_pos a hb
  have hmod : (a.tmod b) % b = a % b := by
    rw [Int.tmod_def, Int.sub_mul_emod_self_left]
  rw [Int.tmod_eq_emod_of_nonneg (by omega), Int.add_emod_right, hmod,
    Int.fmod_eq_emod_of_nonneg a hb.le]

/-- Without wrapping around it is the remainder that goes with rounding down, for divisors of either
sign. -/
theorem tmod_add_tmod (a : Int) {b : Int} (hb : b ≠ 0) : (a.tmod b + b).tmod b = a.fmod b := by
  rcases Int.lt_or_gt_of_ne hb with hneg | hpos
  · have hmirrored := tmod_add_tmod_of_pos (-a) (b := -b) (by omega)
    have hsum : (-a).tmod (-b) + -b = -(a.tmod b + b) := by
      rw [Int.neg_tmod, Int.tmod_neg]
      omega
    rw [hsum, Int.neg_tmod, Int.tmod_neg, Int.neg_fmod_neg] at hmirrored
    omega
  · exact tmod_add_tmod_of_pos a hpos

theorem tmod_nonpos {a : Int} (b : Int) (ha : a ≤ 0) : a.tmod b ≤ 0 := by
  have hmirrored := Int.tmod_nonneg (a := -a) b (by omega)
  rw [Int.neg_tmod] at hmirrored
  omega

theorem abs_tmod_lt (a : Int) {b : Int} (hb : b ≠ 0) : |a.tmod b| < |b| := by
  rw [← Int.natCast_natAbs, ← Int.natCast_natAbs, Int.natAbs_tmod]
  have hlt := Nat.mod_lt a.natAbs (Int.natAbs_pos.mpr hb)
  omega

theorem sub_mul_floor (a : Int) {b : Int} (hb : b ≠ 0) : a - b * ⌊(a : ℚ) / b⌋ = a.fmod b := by
  have hfloor : ∀ a b : Int, 0 < b → ⌊(a : ℚ) / b⌋ = a / b := by
    intro a b hpos
    have hnat : (b : ℚ) = (b.toNat : ℚ) := by exact_mod_cast (Int.toNat_of_nonneg hpos.le).symm
    rw [hnat, Rat.floor_intCast_div_natCast, Int.toNat_of_nonneg hpos.le]
  rcases Int.lt_or_gt_of_ne hb with hneg | hpos
  · have hsame : (a : ℚ) / b = ((-a : Int) : ℚ) / ((-b : Int) : ℚ) := by
      push_cast
      rw [neg_div_neg_eq]
    rw [hsame, hfloor _ _ (by omega), ← neg_neg (a.fmod b), ← Int.neg_fmod_neg,
      Int.fmod_eq_emod_of_nonneg _ (by omega), Int.emod_def]
    ring
  · rw [hfloor _ _ hpos, Int.fmod_eq_emod_of_nonneg a hpos.le, Int.emod_def]

theorem fmod_pos {a b : Int} (hb : 0 < b) (h : a.tmod b ≠ 0) : 0 < a.fmod b := by
  have hnonneg := Int.fmod_nonneg_of_pos a hb
  have hne : a.fmod b ≠ 0 := by
    rwa [Ne, ← Int.dvd_iff_fmod_eq_zero, Int.dvd_iff_tmod_eq_zero]
  omega

theorem fmod_neg {a b : Int} (hb : b < 0) (h : a.tmod b ≠ 0) : a.fmod b < 0 := by
  have hne : (-a).tmod (-b) ≠ 0 := by
    rw [Int.neg_tmod, Int.tmod_neg]
    omega
  have hmirrored := fmod_pos (by omega : 0 < -b) hne
  rw [Int.neg_fmod_neg] at hmirrored
  omega

end Remainder

namespace Machine

open Remainder

/-- The sum that `DIV` forms fits a cell. -/
def SumFits (a b : Cell) : Prop :=
  -2 ^ 63 ≤ a.toInt.tmod b.toInt + b.toInt ∧ a.toInt.tmod b.toInt + b.toInt < 2 ^ 63

section Remainder

variable {a b : Cell}

theorem toInt_remainder (a b : Cell) :
    (remainder a b).toInt = ((a.toInt.tmod b.toInt + b.toInt).bmod (2 ^ 64)).tmod b.toInt := by
  rw [remainder, Int64.toInt_mod, Int64.toInt_add, Int64.toInt_mod]

theorem remainder_of_fits (hb : b.toInt ≠ 0) (h : SumFits a b) :
    (remainder a b).toInt = a.toInt.fmod b.toInt := by
  obtain ⟨hlow, hhigh⟩ := h
  rw [toInt_remainder, Int.bmod_eq_of_le_mul_two (by omega) (by omega), tmod_add_tmod _ hb]

theorem remainder_of_above (hb : b.toInt ≠ 0)
    (h : 2 ^ 63 ≤ a.toInt.tmod b.toInt + b.toInt) :
    (remainder a b).toInt ≤ 0 ∧ 0 < a.toInt.fmod b.toInt := by
  have hsmaller := abs_lt.mp (abs_tmod_lt a.toInt hb)
  have hlt := b.toInt_lt
  have hpos : 0 < b.toInt := by
    by_contra hneg
    rw [abs_of_nonpos (by omega)] at hsmaller
    omega
  rw [abs_of_pos hpos] at hsmaller
  have hwrapped : (a.toInt.tmod b.toInt + b.toInt).bmod (2 ^ 64) =
      a.toInt.tmod b.toInt + b.toInt - 2 ^ 64 := by
    rw [Int.bmod_eq_iff (by decide)]
    refine ⟨?_, ?_, ⟨-1, ?_⟩⟩ <;> push_cast <;> omega
  refine ⟨?_, fmod_pos hpos (by omega)⟩
  rw [toInt_remainder, hwrapped]
  exact tmod_nonpos _ (by omega)

theorem remainder_of_below (hb : b.toInt ≠ 0)
    (h : a.toInt.tmod b.toInt + b.toInt < -2 ^ 63) :
    0 ≤ (remainder a b).toInt ∧ a.toInt.fmod b.toInt < 0 := by
  have hsmaller := abs_lt.mp (abs_tmod_lt a.toInt hb)
  have hle := b.le_toInt
  have hneg : b.toInt < 0 := by
    by_contra hpos
    rw [abs_of_nonneg (by omega)] at hsmaller
    omega
  rw [abs_of_neg hneg] at hsmaller
  have hwrapped : (a.toInt.tmod b.toInt + b.toInt).bmod (2 ^ 64) =
      a.toInt.tmod b.toInt + b.toInt + 2 ^ 64 := by
    rw [Int.bmod_eq_iff (by decide)]
    refine ⟨?_, ?_, ⟨1, ?_⟩⟩ <;> push_cast <;> omega
  refine ⟨?_, fmod_neg hneg (by omega)⟩
  rw [toInt_remainder, hwrapped]
  exact Int.tmod_nonneg _ (by omega)

theorem remainder_eq_fmod_iff (hb : b.toInt ≠ 0) :
    (remainder a b).toInt = a.toInt.fmod b.toInt ↔ SumFits a b := by
  refine ⟨fun hfloors => ?_, remainder_of_fits hb⟩
  -- A sum that has wrapped around puts the two on different sides of zero.
  by_contra hnot
  have hmisses : a.toInt.tmod b.toInt + b.toInt < -2 ^ 63 ∨
      2 ^ 63 ≤ a.toInt.tmod b.toInt + b.toInt := by
    unfold SumFits at hnot
    omega
  rcases hmisses with hbelow | habove
  · have hsides := remainder_of_below hb hbelow
    omega
  · have hsides := remainder_of_above hb habove
    omega

/-- With a positive divisor the sum is never too small. -/
theorem sumFits_iff_of_pos (hb : 0 < b.toInt) :
    SumFits a b ↔ a.toInt.tmod b.toInt + b.toInt < 2 ^ 63 := by
  have hlow := Int.lt_tmod_of_pos a.toInt hb
  unfold SumFits
  omega

theorem remainder_nonnegative_iff (hb : 0 < b.toInt) :
    (0 ≤ (remainder a b).toInt ∧ (remainder a b).toInt < b.toInt ∧
        b.toInt ∣ a.toInt - (remainder a b).toInt) ↔
      a.toInt.tmod b.toInt + b.toInt < 2 ^ 63 := by
  rw [← sumFits_iff_of_pos hb, ← remainder_eq_fmod_iff (by omega)]
  constructor
  · rintro ⟨hnonneg, hlt, hdvd⟩
    -- There is only one such number.
    rw [Int.fmod_eq_emod_of_nonneg _ hb.le, ← Int.emod_eq_of_lt hnonneg hlt]
    rw [eq_comm, Int.emod_eq_emod_iff_emod_sub_eq_zero]
    exact Int.emod_eq_zero_of_dvd hdvd
  · intro hfloors
    rw [hfloors]
    exact ⟨Int.fmod_nonneg_of_pos _ hb, Int.fmod_lt_of_pos _ hb, Int.dvd_self_sub_fmod⟩

end Remainder

section Division

variable {m : Machine} {ins : Instruction}

@[simp] theorem operand_note (ins : Instruction) (m : Machine) (k : Nat) :
    (m.note ins).operand k = m.operand k := by
  rw [note_eq]
  rfl

theorem current_store {v : Cell} (h : m.inBounds = true) : (m.store v).current = v := by
  obtain ⟨hlow, hhigh⟩ := bounds_of_inBounds h
  have hlt : m.ptr.toNat < m.mem.size := by omega
  simp [current, store, hlt]

/-- A step that executes its instruction without failing and stores a value: the value is then in
the selected cell, the pointer and the other cells are as they were, and the program counter has
moved on. -/
structure Stores (m : Machine) (v : Cell) (after : Machine) : Prop where
  performed : m.perform = .next after
  stepped : m.step = settle (.next after)
  counter : after.pc = m.pc + 1
  pointer : after.ptr = m.ptr
  cell : after.current = v
  others : ∀ i : Nat, (i : Int) ≠ m.ptr → after.mem[i]? = m.mem[i]?

theorem perform_of_due (h : m.due? = some ins) : m.perform = execute ins (m.note ins) := by
  obtain ⟨⟨-, hin⟩, hupcoming⟩ := due?_eq_some_iff.mp h
  rw [perform, if_pos hin, hupcoming]

theorem stores_divide (hdue : m.due? = some ins) (hop : ins.op = .divide)
    (hdivisor : m.operand 2 ≠ 0) :
    m.Stores (remainder (m.operand 1) (m.operand 2))
      ((m.note ins).store (remainder (m.operand 1) (m.operand 2))).advance := by
  obtain ⟨hrunning, hin, -⟩ := of_due hdue
  have hexecute : execute ins (m.note ins) =
      .next ((m.note ins).store (remainder (m.operand 1) (m.operand 2))).advance := by
    simp [execute, hop, hdivisor]
  have hptr : (m.note ins).ptr = m.ptr := by rw [note_eq]
  have hmem : (m.note ins).mem = m.mem := by rw [note_eq]
  have hnoted : (m.note ins).inBounds = true := by rwa [inBounds, hptr, hmem]
  refine ⟨?_, ?_, ?_, hptr, current_store hnoted, ?_⟩
  · rw [perform_of_due hdue, hexecute]
  · rw [step_of_running hrunning, attempt_of_due hdue, hexecute]
  · rw [note_eq]
    rfl
  · intro i hi
    rw [← hptr] at hi
    rw [← hmem]
    exact getElem?_store (by rw [hptr]; exact (bounds_of_inBounds hin).1) hi

theorem toInt_ne_zero {v : Cell} (h : v ≠ 0) : v.toInt ≠ 0 := by
  intro hzero
  exact h (Int64.toInt_inj.mp hzero)

end Division

end Machine

/-- Wherever `DIV` is executed with a divisor that is not zero it stores something. It stores what
is left of rounding the quotient down if and only if the sum of the remainder toward zero and the
divisor fits a cell. -/
theorem divide_floors_iff {m : Machine} {ins : Instruction} (hdue : m.due? = some ins)
    (hop : ins.op = .divide) (hdivisor : m.operand 2 ≠ 0) :
    let a := (m.operand 1).toInt
    let b := (m.operand 2).toInt
    ∃ v after, m.Stores v after ∧
      (v.toInt = a - b * ⌊(a : ℚ) / b⌋ ↔ -2 ^ 63 ≤ a.tmod b + b ∧ a.tmod b + b < 2 ^ 63) := by
  intro a b
  have hb : b ≠ 0 := Machine.toInt_ne_zero hdivisor
  refine ⟨_, _, Machine.stores_divide hdue hop hdivisor, ?_⟩
  rw [Remainder.sub_mul_floor a hb]
  exact Machine.remainder_eq_fmod_iff hb

/-- The lowest cell as the divisor and as the dividend. The remainder of minus one wraps around;
that of the lowest cell by minus one does not. -/
theorem divide_floors_iff_lowest :
    let wraps : Machine :=
      { program := ⟨#[{ op := .divide }], []⟩, mem := #[5, -1, Int64.minValue] }
    let stays : Machine := { wraps with mem := #[5, Int64.minValue, -1] }
    (wraps.due? = some { op := .divide } ∧ wraps.operand 2 ≠ 0 ∧
        ∃ v after, wraps.Stores v after ∧
          v.toInt ≠ -1 - -2 ^ 63 * ⌊((-1 : Int) : ℚ) / ((-2 ^ 63 : Int) : ℚ)⌋) ∧
      stays.due? = some { op := .divide } ∧ stays.operand 2 ≠ 0 ∧
        ∃ v after, stays.Stores v after ∧
          v.toInt = -2 ^ 63 - -1 * ⌊((-2 ^ 63 : Int) : ℚ) / ((-1 : Int) : ℚ)⌋ := by
  intro wraps stays
  have hwraps : wraps.due? = some { op := .divide } ∧ wraps.operand 2 ≠ 0 := by decide +kernel
  have hstays : stays.due? = some { op := .divide } ∧ stays.operand 2 ≠ 0 := by decide +kernel
  refine ⟨⟨hwraps.1, hwraps.2, ?_⟩, hstays.1, hstays.2, ?_⟩
  · obtain ⟨v, after, hstores, hiff⟩ := divide_floors_iff hwraps.1 rfl hwraps.2
    have ha : (wraps.operand 1).toInt = -1 := by decide +kernel
    have hb : (wraps.operand 2).toInt = -2 ^ 63 := by decide +kernel
    rw [ha, hb] at hiff
    exact ⟨v, after, hstores, fun hfloors => absurd (hiff.mp hfloors) (by decide)⟩
  · obtain ⟨v, after, hstores, hiff⟩ := divide_floors_iff hstays.1 rfl hstays.2
    have ha : (stays.operand 1).toInt = -2 ^ 63 := by decide +kernel
    have hb : (stays.operand 2).toInt = -1 := by decide +kernel
    rw [ha, hb] at hiff
    exact ⟨v, after, hstores, hiff.mpr (by decide)⟩

/-- Wherever `DIV` is executed with a positive divisor it stores something. It stores a number from
zero up to the divisor that differs from the dividend by a multiple of the divisor if and only if
the sum of the remainder toward zero and the divisor fits a cell. -/
theorem divide_nonnegative_iff {m : Machine} {ins : Instruction} (hdue : m.due? = some ins)
    (hop : ins.op = .divide) (hdivisor : 0 < m.operand 2) :
    let a := (m.operand 1).toInt
    let b := (m.operand 2).toInt
    ∃ v after, m.Stores v after ∧
      ((0 ≤ v.toInt ∧ v.toInt < b ∧ b ∣ a - v.toInt) ↔ a.tmod b + b < 2 ^ 63) := by
  intro a b
  have hb : 0 < b := Int64.lt_iff_toInt_lt.mp hdivisor
  have hne : m.operand 2 ≠ 0 := by
    intro hzero
    simp [hzero] at hdivisor
  exact ⟨_, _, Machine.stores_divide hdue hop hne, Machine.remainder_nonnegative_iff hb⟩

/-- A large divisor and a negative dividend, so that the sum just fits. -/
theorem divide_nonnegative_iff_large :
    let m : Machine :=
      { program := ⟨#[{ op := .divide }], []⟩, mem := #[0, -5, Int64.maxValue] }
    m.due? = some { op := .divide } ∧ 0 < m.operand 2 ∧
      ∃ v after, m.Stores v after ∧ 0 ≤ v.toInt ∧ v.toInt < 2 ^ 63 - 1 ∧
        2 ^ 63 - 1 ∣ -5 - v.toInt := by
  intro m
  have hm : m.due? = some { op := .divide } ∧ 0 < m.operand 2 := by decide +kernel
  refine ⟨hm.1, hm.2, ?_⟩
  obtain ⟨v, after, hstores, hiff⟩ := divide_nonnegative_iff hm.1 rfl hm.2
  have ha : (m.operand 1).toInt = -5 := by decide +kernel
  have hb : (m.operand 2).toInt = 2 ^ 63 - 1 := by decide +kernel
  rw [ha, hb] at hiff
  exact ⟨v, after, hstores, hiff.mpr (by decide)⟩

/-- Two numbers that can be read from the input, and what `DIV` leaves of them is negative. -/
theorem divide_stores_negative :
    let m : Machine :=
      { program := ⟨#[{ op := .divide }, { op := .exit }], []⟩
        mem := #[0, 4611686018427387904, 4611686018427387905] }
    ∃ after, m.due? = some { op := .divide } ∧ 0 < m.operand 2 ∧ m.step = .returned none after ∧
      after.current.toInt = -4611686018427387902 := by
  intro m
  exact ⟨m.step.machine, by decide +kernel, by decide +kernel, rfl, by decide +kernel⟩

end Sardine
