import Sardine.Text.Decimal

/-! Integer literals with an optional sign, an optional base and underscores between digits:
`0x1F`, `0b11`, `0o17`, `017`, `1_000`. -/
namespace Sardine.Literal

inductive Failure
  | malformed
  | outOfRange
  deriving DecidableEq, Repr

def underscore : UInt8 := 95

def lower (b : UInt8) : UInt8 := if 65 ≤ b && b ≤ 90 then b + 32 else b

def digit? (b : UInt8) : Option Nat :=
  if Decimal.isDigit b then some (b.toNat - 48)
  else if 97 ≤ lower b && lower b ≤ 122 then some ((lower b).toNat - 87)
  else none

/-- The base that a literal announces, whether by a zero or by a zero and a letter, and the digits
that follow. -/
def announced : Bytes → Nat × Bool × Bytes
  | 48 :: c :: d :: rest =>
    if lower c = 98 then (2, true, d :: rest)
    else if lower c = 111 then (8, true, d :: rest)
    else if lower c = 120 then (16, true, d :: rest)
    else (8, true, c :: d :: rest)
  | 48 :: rest => (8, true, rest)
  | s => (10, false, s)

/-- The value of digits in a base, behind those of value `n`; it must fit 64 bits. The first thing
that is wrong counts. -/
def digitsValue (base : Nat) : Nat → Bytes → Except Failure Nat
  | n, [] => .ok n
  | n, b :: rest =>
    if b = underscore then digitsValue base n rest
    else match digit? b with
      | none => .error .malformed
      | some d =>
        if base ≤ d then .error .malformed
        else if Nat.pow 2 64 ≤ n * base + d then .error .outOfRange
        else digitsValue base (n * base + d) rest

/-- Whether every underscore stands between two digits, given whether a digit stands in front. -/
def underscoresOk : Bool → Bytes → Bool
  | _, [] => true
  | afterDigit, b :: rest =>
    if b = underscore then
      afterDigit && (match rest with | [] => false | c :: _ => c ≠ underscore) &&
        underscoresOk false rest
    else underscoresOk true rest

/-- The value of a literal without its sign. What announces the base counts as a digit in front. -/
def unsigned (s : Bytes) : Except Failure Nat :=
  match s, announced s with
  | [], _ => .error .malformed
  | _, (base, announcedBase, digits) =>
    match digitsValue base 0 digits with
    | .error e => .error e
    | .ok n => if underscoresOk announcedBase digits then .ok n else .error .malformed

def signed (s : Bytes) : Except Failure Int :=
  match s with
  | 45 :: rest => (unsigned rest).bind fun n =>
    if n ≤ Nat.pow 2 63 then .ok (-(n : Int)) else .error .outOfRange
  | 43 :: rest => (unsigned rest).bind positive
  | _ => (unsigned s).bind positive
where
  positive (n : Nat) : Except Failure Int :=
    if n < Nat.pow 2 63 then .ok (n : Int) else .error .outOfRange

end Sardine.Literal
