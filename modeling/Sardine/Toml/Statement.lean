import Sardine.Toml.Scalar
import Sardine.Toml.Text

/-! The statements of a TOML file: headers of tables and assignments of values to keys. -/
namespace Sardine.Toml

abbrev Key := List Bytes

inductive Value
  | string (text : Bytes)
  | integer (n : Int)
  | boolean (b : Bool)
  | float
  | dateTime
  | array (items : List Value)
  | inlineTable (fields : List (Key × Value))
  deriving Repr

inductive Statement
  | table (key : Key)
  | tableInArray (key : Key)
  | assign (key : Key) (value : Value)
  deriving Repr

/-- Whether a file is UTF-8 with no control characters but tabs and line ends, a CR standing only
in front of an LF. -/
def isClean (s : Bytes) : Bool := Utf8.isValid s && go s
where
  go : Bytes → Bool
    | [] => true
    | b :: rest =>
      (if b = 13 then rest.head? = some 10 else b = 9 || b = 10 || (32 ≤ b && b ≠ 127)) && go rest

def skipBlanks (s : Bytes) : Bytes := s.dropWhile isBlank

def skipComment (s : Bytes) : Bytes := s.dropWhile (! isLineEnd ·)

theorem length_skipComment_le (s : Bytes) : (skipComment s).length ≤ s.length :=
  (List.dropWhile_suffix _).length_le

def skipGap (s : Bytes) : Bytes :=
  match s with
  | [] => []
  | b :: rest =>
    if isBlank b || isLineEnd b then skipGap rest
    else if b = 35 then skipGap (skipComment rest)
    else b :: rest
termination_by s.length
decreasing_by
  · simp
  · have := length_skipComment_le rest
    simp
    omega

def isBareByte (b : UInt8) : Bool :=
  Decimal.isDigit b || (97 ≤ Literal.lower b && Literal.lower b ≤ 122) || b = 95 || b = 45

/-- One part of a key: quoted, or bare letters, digits, underscores and dashes. -/
def keyPart : Bytes → Option (Bytes × Bytes)
  | 34 :: rest => basicLine rest
  | 39 :: rest => literalLine rest
  | s =>
    if (s.takeWhile isBareByte).isEmpty then none
    else some (s.takeWhile isBareByte, s.dropWhile isBareByte)

def key : Nat → Bytes → Option (Key × Bytes)
  | 0, _ => none
  | fuel + 1, s =>
    match keyPart (skipBlanks s) with
    | none => none
    | some (part, rest) =>
      match skipBlanks rest with
      | 46 :: rest => (key fuel rest).map fun r => (part :: r.1, r.2)
      | rest => some ([part], rest)

def isTokenByte (b : UInt8) : Bool := isBareByte b || b = 43 || b = 46 || b = 58

/-- Whether digits and then a dash or colon stand at the front, as in a date or time. -/
def startsDate (s : Bytes) : Bool :=
  (match s with | b :: _ => Decimal.isDigit b | [] => false) &&
    match s.dropWhile Decimal.isDigit with
    | b :: _ => b = 45 || b = 58
    | [] => false

def withoutTrailingBlanks (s : Bytes) : Bytes := (s.reverse.dropWhile (· = 32)).reverse

def scalarOfToken? (token : Bytes) : Option Value :=
  if token = utf8 "true" then some (.boolean true)
  else if token = utf8 "false" then some (.boolean false)
  else match integer? token with
    | some n => some (.integer n)
    | none => if isFloat token then some .float else none

def scalar (s : Bytes) : Option (Value × Bytes) :=
  if startsDate s then
    if isDateTime (withoutTrailingBlanks (s.takeWhile isDateByte)) then
      some (.dateTime, s.dropWhile isDateByte)
    else none
  else (scalarOfToken? (s.takeWhile isTokenByte)).map fun v => (v, s.dropWhile isTokenByte)

def keyAndEquals (fuel : Nat) (s : Bytes) : Option (Key × Bytes) :=
  match key fuel s with
  | some (key, 61 :: rest) => some (key, skipBlanks rest)
  | _ => none

mutual

def value : Nat → Bytes → Option (Value × Bytes)
  | 0, _ => none
  | fuel + 1, s =>
    match s with
    | 91 :: rest => (arrayItems fuel rest).map fun r => (.array r.1, r.2)
    | 123 :: rest => (tableFields fuel rest).map fun r => (.inlineTable r.1, r.2)
    | 34 :: 34 :: 34 :: rest => (basicLines rest).map fun r => (.string r.1, r.2)
    | 34 :: rest => (basicLine rest).map fun r => (.string r.1, r.2)
    | 39 :: 39 :: 39 :: rest => (literalLines rest).map fun r => (.string r.1, r.2)
    | 39 :: rest => (literalLine rest).map fun r => (.string r.1, r.2)
    | s => scalar s

def arrayItems : Nat → Bytes → Option (List Value × Bytes)
  | 0, _ => none
  | fuel + 1, s =>
    match skipGap s with
    | 93 :: rest => some ([], rest)
    | s =>
      match value fuel s with
      | none => none
      | some (v, rest) =>
        match skipGap rest with
        | 44 :: rest => (arrayItems fuel rest).map fun r => (v :: r.1, r.2)
        | 93 :: rest => some ([v], rest)
        | _ => none

def tableFields : Nat → Bytes → Option (List (Key × Value) × Bytes)
  | 0, _ => none
  | fuel + 1, s =>
    match skipGap s with
    | 125 :: rest => some ([], rest)
    | s =>
      match keyAndEquals fuel s with
      | none => none
      | some (key, rest) =>
        match value fuel rest with
        | none => none
        | some (v, rest) =>
          match skipGap rest with
          | 44 :: rest => (tableFields fuel rest).map fun r => ((key, v) :: r.1, r.2)
          | 125 :: rest => some ([(key, v)], rest)
          | _ => none

end

def lineRest (s : Bytes) : Option Bytes :=
  match skipBlanks s with
  | [] => some []
  | b :: rest =>
    if b = 35 then some (skipComment rest) else if isLineEnd b then some rest else none

def statement (fuel : Nat) (s : Bytes) : Option (Statement × Bytes) :=
  match s with
  | 91 :: 91 :: rest =>
    match key fuel rest with
    | some (key, 93 :: 93 :: rest) => some (.tableInArray key, rest)
    | _ => none
  | 91 :: rest =>
    match key fuel rest with
    | some (key, 93 :: rest) => some (.table key, rest)
    | _ => none
  | s =>
    match keyAndEquals fuel s with
    | some (key, rest) => (value fuel rest).map fun r => (.assign key r.1, r.2)
    | none => none

def statements : Nat → Bytes → Option (List Statement)
  | 0, _ => none
  | fuel + 1, s =>
    match skipGap s with
    | [] => some []
    | s =>
      match statement (s.length + 1) s with
      | none => none
      | some (st, rest) =>
        match lineRest rest with
        | none => none
        | some rest => (statements fuel rest).map (st :: ·)

def withoutByteOrderMark : Bytes → Bytes
  | 0xFF :: 0xFE :: rest => rest
  | 0xFE :: 0xFF :: rest => rest
  | 0xEF :: 0xBB :: 0xBF :: rest => rest
  | s => s

/-- The statements of a whole file. Every statement and every nested value takes at least one byte,
so the length of the file bounds their number. -/
def parseFile (file : Bytes) : Option (List Statement) :=
  let s := withoutByteOrderMark file
  if isClean s then statements (s.length + 1) s else none

end Sardine.Toml
