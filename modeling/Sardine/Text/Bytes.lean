/-! Byte strings, the alphabet of sources, labels, inputs and messages.
A byte string need not be valid UTF-8. -/
namespace Sardine

abbrev Bytes := List UInt8

def utf8 (text : String) : Bytes := text.toUTF8.data.toList

@[simp] theorem utf8_empty : utf8 "" = [] := rfl

namespace Bytes

def newline : UInt8 := 10

def carriageReturn : UInt8 := 13

def space : UInt8 := 32

/-- The parts of `s` between the occurrences of `sep`: one more than there are separators. -/
def splitAt (sep : UInt8) : Bytes → List Bytes
  | [] => [[]]
  | b :: rest =>
    if b = sep then [] :: splitAt sep rest
    else match splitAt sep rest with
      | [] => [[b]]
      | part :: parts => (b :: part) :: parts

theorem splitAt_ne_nil (sep : UInt8) (s : Bytes) : splitAt sep s ≠ [] := by
  cases s with
  | nil => simp [splitAt]
  | cons b rest =>
    unfold splitAt
    split
    · simp
    · split <;> simp

def join (sep : Bytes) : List Bytes → Bytes
  | [] => []
  | [part] => part
  | part :: parts => part ++ sep ++ join sep parts

@[simp] theorem join_nil (sep : Bytes) : join sep [] = [] := rfl

@[simp] theorem join_singleton (sep part : Bytes) : join sep [part] = part := rfl

/-- The order of byte strings by their first difference, a proper beginning coming first. -/
def before : Bytes → Bytes → Bool
  | [], _ => true
  | _ :: _, [] => false
  | a :: s, b :: t => if a = b then before s t else decide (a < b)

@[simp] theorem before_refl (s : Bytes) : before s s = true := by
  induction s with
  | nil => rfl
  | cons a s ih => simp [before, ih]

def padLeft (width : Nat) (s : Bytes) : Bytes :=
  List.replicate (width - s.length) space ++ s

end Bytes

end Sardine
