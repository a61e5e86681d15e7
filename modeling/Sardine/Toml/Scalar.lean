import Sardine.Text.Literal

/-! Numbers, dates and times of a TOML file, each given as one token. -/
namespace Sardine.Toml

def isHexDigit (b : UInt8) : Bool :=
  match Literal.digit? b with
  | some d => d < 16
  | none => false

/-- Whether every underscore follows a digit and the last byte is a digit, given whether a digit
stands in front. -/
def underscoresOk : Bool → Bytes → Bool
  | afterDigit, [] => afterDigit
  | afterDigit, b :: rest =>
    if b = Literal.underscore then afterDigit && underscoresOk false rest
    else underscoresOk (isHexDigit b) rest

def splitSign : Bytes → Bool × Bytes
  | 45 :: rest => (true, rest)
  | 43 :: rest => (false, rest)
  | s => (false, s)

def isDigitOrUnderscore (b : UInt8) : Bool := Decimal.isDigit b || b = Literal.underscore

def withoutUnderscores (s : Bytes) : Bytes := s.filter (· ≠ Literal.underscore)

/-- Digits with underscores between them and no zero in front of others. -/
def isPlainDecimal (s : Bytes) : Bool :=
  s.all isDigitOrUnderscore && underscoresOk false s && !(1 < s.length && s.head? = some 48)

def basedInteger? (base : Nat) (digits : Bytes) : Option Int :=
  if underscoresOk false digits then
    match Literal.digitsValue base 0 digits with
    | .ok n => if n < Nat.pow 2 63 then some (n : Int) else none
    | .error _ => none
  else none

def decimalInteger? (token : Bytes) : Option Int :=
  match splitSign token with
  | (negative, digits) =>
    if isPlainDecimal digits then
      if negative then
        if Decimal.value (withoutUnderscores digits) ≤ Nat.pow 2 63 then
          some (-(Decimal.value (withoutUnderscores digits) : Int))
        else none
      else if Decimal.value (withoutUnderscores digits) < Nat.pow 2 63 then
        some (Decimal.value (withoutUnderscores digits) : Int)
      else none
    else none

def integer? : Bytes → Option Int
  | 48 :: 120 :: digits => basedInteger? 16 digits
  | 48 :: 111 :: digits => basedInteger? 8 digits
  | 48 :: 98 :: digits => basedInteger? 2 digits
  | token => decimalInteger? token

/-- The middle between the largest finite double and the next power of two, the least number that
no longer rounds to a finite double. -/
def overflowBound : Nat := (Nat.pow 2 54 - 1) * Nat.pow 2 970

/-- Whether `mantissa · 10 ^ exponent` rounds to a finite double. -/
def roundsToFinite (mantissa : Nat) (exponent : Int) : Bool :=
  if 0 ≤ exponent then mantissa * Nat.pow 10 exponent.toNat < overflowBound
  else mantissa < overflowBound * Nat.pow 10 exponent.natAbs

/-- Whether digits, taken as a whole number, times `10 ^ exponent` round to a finite double. The
number of places decides, except near the bound, which has 309. -/
def isFinite (digits : Bytes) (exponent : Int) : Bool :=
  let significant := digits.dropWhile (· = 48)
  let places := significant.length + exponent
  significant.isEmpty || places < 300 ||
    (places ≤ 310 && roundsToFinite (Decimal.value significant) exponent)

/-- The fraction of a float: a point with digits behind it, or nothing. -/
def fraction? : Bytes → Option (Bytes × Bytes)
  | 46 :: rest =>
    match rest.takeWhile isDigitOrUnderscore, rest.dropWhile isDigitOrUnderscore with
    | digits, rest => if underscoresOk false digits then some (digits, rest) else none
  | s => some ([], s)

/-- From this size on, an exponent takes no more digits. -/
def largeExponent : Nat := 10000

/-- The size of an exponent. Once it is large, whatever digits follow are passed over. -/
def exponentSize (digits : Bytes) : Nat :=
  digits.foldl (fun v b => if v < largeExponent then 10 * v + (b.toNat - 48) else v) 0

def exponent? : Bytes → Option Int
  | [] => some 0
  | e :: rest =>
    match splitSign rest with
    | (negative, digits) =>
      if Literal.lower e = 101 && digits.all isDigitOrUnderscore && underscoresOk false digits then
        if negative then some (-(exponentSize (withoutUnderscores digits) : Int))
        else some (exponentSize (withoutUnderscores digits) : Int)
      else none

def isSpecialFloat (s : Bytes) : Bool := s = utf8 "inf" || s = utf8 "nan"

def isFloat (token : Bytes) : Bool :=
  match splitSign token with
  | (_, s) =>
    if isSpecialFloat s then true
    else
      let whole := s.takeWhile isDigitOrUnderscore
      match fraction? (s.dropWhile isDigitOrUnderscore) with
      | none => false
      | some (digits, rest) =>
        match exponent? rest with
        | none => false
        | some exponent =>
          isPlainDecimal whole && !(digits.isEmpty && rest.isEmpty) &&
            isFinite (withoutUnderscores (whole ++ digits))
              (exponent - (withoutUnderscores digits).length)

def fixedNumber? (length : Nat) (s : Bytes) : Option Nat :=
  if s.length = length && s.all Decimal.isDigit then some (Decimal.value s) else none

def inRange (lo hi : Nat) : Option Nat → Bool
  | some n => lo ≤ n && n ≤ hi
  | none => false

def isLeapYear (y : Nat) : Bool := y % 4 = 0 && (y % 100 ≠ 0 || y % 400 = 0)

def daysInMonth (y m : Nat) : Nat :=
  if m = 2 then (if isLeapYear y then 29 else 28)
  else if m = 4 || m = 6 || m = 9 || m = 11 then 30
  else 31

/-- Year, month and day, such as `1979-05-27`. -/
def isDate (s : Bytes) : Bool :=
  match Bytes.splitAt 45 s with
  | [y, m, d] =>
    match fixedNumber? 4 y, fixedNumber? 2 m with
    | some year, some month =>
      inRange 1 12 (some month) && inRange 1 (daysInMonth year month) (fixedNumber? 2 d)
    | _, _ => false
  | _ => false

def isSeconds (s : Bytes) : Bool :=
  match Bytes.splitAt 46 s with
  | [whole] => inRange 0 59 (fixedNumber? 2 whole)
  | [whole, digits] =>
    inRange 0 59 (fixedNumber? 2 whole) && !digits.isEmpty && digits.all Decimal.isDigit
  | _ => false

def isTime (s : Bytes) : Bool :=
  match Bytes.splitAt 58 s with
  | [h, m] => inRange 0 23 (fixedNumber? 2 h) && inRange 0 59 (fixedNumber? 2 m)
  | [h, m, rest] =>
    inRange 0 23 (fixedNumber? 2 h) && inRange 0 59 (fixedNumber? 2 m) && isSeconds rest
  | _ => false

def isOffset : Bytes → Bool
  | [] => true
  | [90] => true
  | sign :: rest =>
    (sign = 43 || sign = 45) &&
      match Bytes.splitAt 58 rest with
      | [h, m] => inRange 0 24 (fixedNumber? 2 h) && inRange 0 60 (fixedNumber? 2 m)
      | _ => false

/-- The bytes that date and time are written with, blanks between them included. -/
def isDateByte (b : UInt8) : Bool :=
  Decimal.isDigit b || b = 45 || b = 58 || b = 46 || b = 43 || b = 32 || b = 84 || b = 116 ||
    b = 90 || b = 122

def normalDateByte (b : UInt8) : UInt8 :=
  if b = 32 || b = 116 then 84 else if b = 122 then 90 else b

def isDateTime (token : Bytes) : Bool :=
  let s := token.map normalDateByte
  isDate s || isTime s ||
    match s.drop 10 with
    | 84 :: rest =>
      let isClock := fun b : UInt8 => b ≠ 90 && b ≠ 43 && b ≠ 45
      isDate (s.take 10) && isTime (rest.takeWhile isClock) && isOffset (rest.dropWhile isClock)
    | _ => false

end Sardine.Toml
