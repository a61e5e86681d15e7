import Sardine.Text.Bytes

/-! Decimal numbers as bytes. -/
namespace Sardine.Decimal

def isDigit (b : UInt8) : Bool := 48 ≤ b && b ≤ 57

def digit (n : Nat) : UInt8 := (48 + n).toUInt8

/-- The digits of a number, the most significant first and without leading zeros. -/
def digits (n : Nat) : Bytes :=
  if n < 10 then [digit n] else digits (n / 10) ++ [digit (n % 10)]
termination_by n

def value (s : Bytes) : Nat := s.foldl (fun v b => 10 * v + (b.toNat - 48)) 0

@[simp] theorem value_nil : value [] = 0 := rfl

@[simp] theorem value_concat (s : Bytes) (b : UInt8) :
    value (s ++ [b]) = 10 * value s + (b.toNat - 48) := by
  simp [value]

theorem digit_toNat {n : Nat} (h : n < 10) : (digit n).toNat = 48 + n := by
  simp only [digit, Nat.toUInt8, UInt8.toNat_ofNat']
  omega

@[simp] theorem value_digits (n : Nat) : value (digits n) = n := by
  fun_induction digits n with
  | case1 n h => simp [value, digit_toNat h]
  | case2 n h ih =>
    rw [value_concat, ih, digit_toNat (Nat.mod_lt _ (by omega))]
    omega

def ofInt (n : Int) : Bytes :=
  if n < 0 then 45 :: digits n.natAbs else digits n.natAbs

/-- An address in a column of six, with at least one blank in front. -/
def address (n : Nat) : Bytes := Bytes.padLeft 6 (Bytes.space :: digits n)

end Sardine.Decimal
