import Sardine.Files
import Sardine.Input.Queue

/-! The input of an invocation: named files in order, then a reader, all into one queue, which is
closed at the end. What goes wrong is noted and passed over. -/
namespace Sardine.Queue

def remark (name message : Bytes) : Bytes := name ++ utf8 ": " ++ message

def feedFile (files : Files) (name : Bytes) (q : Queue) : List Bytes × Queue :=
  match files name with
  | .error fault =>
    ([if fault.whileReading then remark name fault.message else fault.message], q)
  | .ok content =>
    if content.isEmpty then ([], q)
    else match q.write content with
      | .ok after => ([], after)
      | .error e => ([remark name e.message], q)

def feedFiles (files : Files) : List Bytes → Queue → List Bytes × Queue
  | [], q => ([], q)
  | name :: names, q =>
    match feedFile files name q with
    | (remarks, q) =>
      match feedFiles files names q with
      | (more, q) => (remarks ++ more, q)

/-- The files, then the reader; the result is the list of remarks. -/
def feedAll (files : Files) (names : List Bytes) (r : Reader) (q : Queue) :
    Outcome (List Bytes) × Queue :=
  match feedFiles files names q with
  | (remarks, q) =>
    match q.feed r with
    | (.ok (), q) => (.ok remarks, q)
    | (.failed e, q) => (.ok (remarks ++ [remark (utf8 "stdin") e.message]), q)
    | (.crashed text, q) => (.crashed text, q)

end Sardine.Queue
