import Sardine.Text.Bytes

/-! Characters in a byte string that may not be valid UTF-8.
A byte at which no character begins stands for itself. -/
namespace Sardine.Utf8

def isTail (b : UInt8) : Bool := 0x80 ≤ b && b ≤ 0xBF

/-- The second bytes allowed after the first byte of a three byte character: no overlong form and
no surrogate. -/
def isSecondOfThree (a b : UInt8) : Bool :=
  if a = 0xE0 then 0xA0 ≤ b && b ≤ 0xBF
  else if a = 0xED then 0x80 ≤ b && b ≤ 0x9F
  else 0xE1 ≤ a && a ≤ 0xEF && isTail b

/-- The second bytes allowed after the first byte of a four byte character: no overlong form and
nothing above U+10FFFF. -/
def isSecondOfFour (a b : UInt8) : Bool :=
  if a = 0xF0 then 0x90 ≤ b && b ≤ 0xBF
  else if a = 0xF4 then 0x80 ≤ b && b ≤ 0x8F
  else 0xF1 ≤ a && a ≤ 0xF3 && isTail b

def tailBits (b : UInt8) : Nat := b.toNat % 64

def first? : Bytes → Option (Nat × Nat)
  | [] => none
  | a :: rest =>
    if a < 0x80 then some (a.toNat, 1)
    else match rest with
    | [] => none
    | b :: rest =>
      if 0xC2 ≤ a && a ≤ 0xDF && isTail b then some (a.toNat % 32 * 64 + tailBits b, 2)
      else match rest with
      | [] => none
      | c :: rest =>
        if isSecondOfThree a b && isTail c then
          some ((a.toNat % 16 * 64 + tailBits b) * 64 + tailBits c, 3)
        else match rest with
        | [] => none
        | d :: _ =>
          if isSecondOfFour a b && isTail c && isTail d then
            some (((a.toNat % 8 * 64 + tailBits b) * 64 + tailBits c) * 64 + tailBits d, 4)
          else none

/-- A character with its bytes, or a byte that begins none. -/
inductive Piece
  | char (code : Nat) (bytes : Bytes)
  | stray (byte : UInt8)
  deriving DecidableEq, Repr

def Piece.bytes : Piece → Bytes
  | .char _ bytes => bytes
  | .stray byte => [byte]

def Piece.isChar : Piece → Bool
  | .char _ _ => true
  | .stray _ => false

def pieces : Bytes → List Piece
  | [] => []
  | a :: rest =>
    match first? (a :: rest) with
    | some (code, width) =>
      .char code (a :: rest.take (width - 1)) :: pieces (rest.drop (width - 1))
    | none => .stray a :: pieces rest
termination_by s => s.length
decreasing_by all_goals simp; try omega

/-- The number of characters, a stray byte counting as one. -/
def width (s : Bytes) : Nat := (pieces s).length

def isValid (s : Bytes) : Bool := (pieces s).all Piece.isChar

def padRight (n : Nat) (s : Bytes) : Bytes :=
  s ++ List.replicate (n - width s) Bytes.space

def encode (code : Nat) : Bytes :=
  if code < 0x80 then [code.toUInt8]
  else if code < 0x800 then [(0xC0 + code / 64).toUInt8, (0x80 + code % 64).toUInt8]
  else if code < 0x10000 then
    [(0xE0 + code / 4096).toUInt8, (0x80 + code / 64 % 64).toUInt8, (0x80 + code % 64).toUInt8]
  else
    [(0xF0 + code / 262144).toUInt8, (0x80 + code / 4096 % 64).toUInt8,
      (0x80 + code / 64 % 64).toUInt8, (0x80 + code % 64).toUInt8]

end Sardine.Utf8
