import Sardine.Program

/-! The phrases of the language, one per instruction.
Thirteen are fixed; four carry a name or a number between or beside fixed words. -/
namespace Sardine

inductive Phrase
  | plain (op : Opcode)
  | swimTo (label : Bytes)
  | arriveAt (label : Bytes)
  | ifNoneGoTo (label : Bytes)
  | lookInto (tank : Bytes)
  deriving DecidableEq, Repr

namespace Phrase

def lastTank : Nat := 2018

def plainPhrases : List (Bytes × Opcode) :=
  [(utf8 "イワシがいっぱいだあ…ちょっとだけもらっていこうかな", .getChar),
    (utf8 "イワシはここに置いていこう", .putChar),
    (utf8 "イワシを数えてみよう", .getNumber),
    (utf8 "イワシの数を教えてあげる", .putNumber),
    (utf8 "イワシが一匹増えた", .increment),
    (utf8 "イワシが一匹減った", .decrement),
    (utf8 "イワシがいなくなっちゃった", .zeroOut),
    (utf8 "今日はもう帰ろう", .exit),
    (utf8 "イワシがひっくり返った", .negate),
    (utf8 "イワシとイワシを合わせよう", .add),
    (utf8 "イワシからイワシを引いてみよう", .subtract),
    (utf8 "イワシにイワシを掛けてみよう", .multiply),
    (utf8 "イワシをイワシで分けてみよう", .divide)]

def swimEnding : Bytes := utf8 "へ泳いでいこう"

def arrivalEnding : Bytes := utf8 "に着いた"

def ifNoneOpening : Bytes := utf8 "イワシがいなければ"

def lookEnding : Bytes := utf8 "番目の水槽をのぞく"

def before? (ending line : Bytes) : Option Bytes :=
  (ending.isSuffixOf? line).filter (! ·.isEmpty)

def after? (opening line : Bytes) : Option Bytes :=
  (opening.isPrefixOf? line).filter (! ·.isEmpty)

/-- What a line says; of several readings the first in this order counts. -/
def ofLine? (line : Bytes) : Option Phrase :=
  (plainPhrases.lookup line).map plain <|>
  (before? swimEnding line).map swimTo <|>
  (before? arrivalEnding line).map arriveAt <|>
  (after? ifNoneOpening line).map ifNoneGoTo <|>
  (before? lookEnding line).map lookInto

/-- The number of a tank: at most as many digits as the last tank has, and not beyond it. -/
def tank? (digits : Bytes) : Option Nat :=
  if digits.isEmpty || (Decimal.digits lastTank).length < digits.length then none
  else if digits.all Decimal.isDigit && Decimal.value digits ≤ lastTank then
    some (Decimal.value digits)
  else none

end Phrase

/-- The phrase for an instruction; empty if its operation has none. -/
def Instruction.phrase (ins : Instruction) : Bytes :=
  match ins.op with
  | .nop => ins.label ++ Phrase.arrivalEnding
  | .jumpIfPositive => ins.label ++ Phrase.swimEnding
  | .jumpIfZero => Phrase.ifNoneOpening ++ ins.label
  | .setPointer => Decimal.ofInt ins.arg ++ Phrase.lookEnding
  | op =>
    match Phrase.plainPhrases.find? fun entry => entry.2 = op with
    | some entry => entry.1
    | none => []

end Sardine
