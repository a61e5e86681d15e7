import Sardine.Text.Decimal

/-! Reading instructions as they go along.
A character takes one byte. A number takes a line: bytes up to LF or the end of the input, or up to
CR and the one byte after it. Between two bytes such an instruction can be suspended. -/
namespace Sardine

/-- A cell of the memory: a signed word of 64 bits, whose arithmetic wraps around. -/
abbrev Cell := Int64

def endCell : Cell := -1

def Cell.ofByte (b : UInt8) : Cell := Int64.ofNat b.toNat

def Cell.toByte (v : Cell) : UInt8 := v.toUInt64.toUInt8

def Cell.ofDigits? (token : Bytes) : Option Cell :=
  if token.isEmpty || !token.all Decimal.isDigit then none
  else if Decimal.value token < Nat.pow 2 63 then some (Int64.ofNat (Decimal.value token))
  else none

def Cell.text (v : Cell) : Bytes := Decimal.ofInt v.toInt

/-- What a reading instruction has taken so far. -/
inductive Wait
  | char
  | number (token : Bytes)
  | afterReturn (token : Bytes)
  deriving DecidableEq, Repr

namespace Wait

/-- The cell that has been read, or the token that is not a number. -/
abbrev Result := Except Bytes Cell

def ofToken (token : Bytes) : Result :=
  match Cell.ofDigits? token with
  | some v => .ok v
  | none => .error token

/-- What the end of the input makes of it. -/
def atEnd : Wait → Result
  | char => .ok endCell
  | number token => ofToken token
  | afterReturn token => ofToken token

/-- What one more byte makes of it: a result, or a longer wait. -/
def accept : Wait → UInt8 → Result ⊕ Wait
  | char, b => .inl (.ok (Cell.ofByte b))
  | number token, b =>
    if b = Bytes.newline then .inl (ofToken token)
    else if b = Bytes.carriageReturn then .inr (afterReturn token)
    else .inr (number (token ++ [b]))
  | afterReturn token, _ => .inl (ofToken token)

end Wait

end Sardine
