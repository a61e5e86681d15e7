import Sardine.Text.Utf8
import Sardine.Text.Printable

/-! Byte strings in double quotes, as messages show them. -/
namespace Sardine.Quoted

def hexDigit (n : Nat) : UInt8 := (if n < 10 then 48 + n else 87 + n).toUInt8

def hex : Nat → Nat → Bytes
  | 0, _ => []
  | n + 1, code => hex n (code / 16) ++ [hexDigit (code % 16)]

@[simp] theorem length_hex (n code : Nat) : (hex n code).length = n := by
  induction n generalizing code with
  | zero => rfl
  | succ n ih => simp [hex, ih]

def controlLetter? : Nat → Option String
  | 7 => some "\\a"
  | 8 => some "\\b"
  | 9 => some "\\t"
  | 10 => some "\\n"
  | 11 => some "\\v"
  | 12 => some "\\f"
  | 13 => some "\\r"
  | _ => none

/-- A quote or backslash takes a backslash, a printable character stands for itself, a control
character is written by letter or in hexadecimal, all else by code point or byte. -/
def escape : Utf8.Piece → Bytes
  | .stray byte => utf8 "\\x" ++ hex 2 byte.toNat
  | .char code bytes =>
    if code = 34 || code = 92 then 92 :: bytes
    else if Printable.isPrintable code then bytes
    else match controlLetter? code with
    | some letter => utf8 letter
    | none =>
      if code < 32 || code = 127 then utf8 "\\x" ++ hex 2 code
      else if code < 0x10000 then utf8 "\\u" ++ hex 4 code
      else utf8 "\\U" ++ hex 8 code

def quote (s : Bytes) : Bytes :=
  34 :: (Utf8.pieces s).flatMap escape ++ [34]

end Sardine.Quoted
