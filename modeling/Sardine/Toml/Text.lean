import Sardine.Text.Literal
import Sardine.Text.Utf8

/-! Strings of a TOML file: basic ones with escapes, literal ones without, and both over several
lines. -/
namespace Sardine.Toml

def isBlank (b : UInt8) : Bool := b = 32 || b = 9

def isLineEnd (b : UInt8) : Bool := b = 10 || b = 13

def quotationMark : UInt8 := 34

def apostrophe : UInt8 := 39

def backslash : UInt8 := 92

/-- A string on one line up to its closing mark, escapes and all, and what follows it. -/
def rawLine (mark : UInt8) (escapes : Bool) : Bytes → Option (Bytes × Bytes)
  | [] => none
  | b :: rest =>
    if b = mark then some ([], rest)
    else if isLineEnd b then none
    else if escapes && b = backslash then
      match rest with
      | [] => none
      | c :: rest => (rawLine mark escapes rest).map fun r => (b :: c :: r.1, r.2)
    else (rawLine mark escapes rest).map fun r => (b :: r.1, r.2)

/-- The most marks that may stand in a row at the end of a string over several lines, the three
closing ones included: behind an escaped backslash there may be one more. -/
def mostMarks (afterBackslash : Bool) : Nat := if afterBackslash then 6 else 5

/-- A string over several lines up to its three closing marks. Of marks in a row the last three
close it and the others belong to it. -/
def rawLines (mark : UInt8) (escapes : Bool) (afterBackslash : Bool) (s : Bytes) :
    Option (Bytes × Bytes) :=
  match s with
  | [] => none
  | b :: rest =>
    if b = mark then
      let more := (rest.takeWhile (· = mark)).length
      if more < 2 then (rawLines mark escapes false rest).map fun r => (b :: r.1, r.2)
      else if mostMarks afterBackslash ≤ more then none
      else some (List.replicate (more - 2) mark, rest.drop more)
    else if escapes && b = backslash then
      match rest with
      | [] => none
      | c :: rest =>
        (rawLines mark escapes (c = backslash) rest).map fun r => (b :: c :: r.1, r.2)
    else (rawLines mark escapes false rest).map fun r => (b :: r.1, r.2)

def withoutFirstLineEnd : Bytes → Bytes
  | 10 :: rest => rest
  | 13 :: 10 :: rest => rest
  | s => s

def codePoint? (digits : Nat) (s : Bytes) : Option Bytes :=
  if (s.take digits).length = digits then
    match Literal.digitsValue 16 0 (s.take digits) with
    | .ok code =>
      if (s.take digits).contains Literal.underscore || 0x10FFFF < code ||
          (0xD800 ≤ code && code ≤ 0xDFFF) then none
      else some (Utf8.encode code)
    | .error _ => none
  else none

def letterEscape? (b : UInt8) : Option UInt8 :=
  if b = 98 then some 8
  else if b = 116 then some 9
  else if b = 110 then some 10
  else if b = 102 then some 12
  else if b = 114 then some 13
  else if b = 101 then some 27
  else if b = quotationMark || b = backslash then some b
  else none

def codeEscape? (b : UInt8) : Option Nat :=
  if b = 120 then some 2 else if b = 117 then some 4 else if b = 85 then some 8 else none

def isSpaceByte (b : UInt8) : Bool := isBlank b || isLineEnd b

/-- A raw string with its escapes replaced. Over several lines, a backslash at the end of a line
takes away the white space that follows. -/
def unescape (lines : Bool) (s : Bytes) : Option Bytes :=
  match s with
  | [] => some []
  | b :: rest =>
    if b ≠ backslash then (unescape lines rest).map (b :: ·)
    else match rest with
      | [] => none
      | c :: tail =>
        match letterEscape? c, codeEscape? c with
        | some v, _ => (unescape lines tail).map (v :: ·)
        | none, some n =>
          match codePoint? n tail with
          | some bytes => (unescape lines (tail.drop n)).map (bytes ++ ·)
          | none => none
        | none, none =>
          if lines && ((c :: tail).takeWhile isSpaceByte).contains 10 then
            unescape lines ((c :: tail).dropWhile isSpaceByte)
          else none
termination_by s.length
decreasing_by
  all_goals simp_wf
  all_goals try omega
  have shorter := (List.dropWhile_suffix isSpaceByte : (c :: tail).dropWhile isSpaceByte <:+ _)
  have := shorter.length_le
  simp only [List.length_cons] at this
  omega

def basicLine (s : Bytes) : Option (Bytes × Bytes) :=
  (rawLine quotationMark true s).bind fun r => (unescape false r.1).map fun t => (t, r.2)

def literalLine (s : Bytes) : Option (Bytes × Bytes) := rawLine apostrophe false s

def basicLines (s : Bytes) : Option (Bytes × Bytes) :=
  (rawLines quotationMark true false s).bind fun r =>
    (unescape true (withoutFirstLineEnd r.1)).map fun t => (t, r.2)

def literalLines (s : Bytes) : Option (Bytes × Bytes) :=
  (rawLines apostrophe false false s).map fun r => (withoutFirstLineEnd r.1, r.2)

end Sardine.Toml
