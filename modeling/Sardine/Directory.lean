import Sardine.Files

/-! A tree of files with nothing else in it, and a place in the tree from which names are resolved
step by step, as paths are. -/
namespace Sardine

inductive FileReason
  | missing | notDirectory | isDirectory | nameTooLong | invalidName
  deriving DecidableEq, Repr

def FileReason.message : FileReason → String
  | missing => "no such file or directory"
  | notDirectory => "not a directory"
  | isDirectory => "is a directory"
  | nameTooLong => "file name too long"
  | invalidName => "invalid argument"

/-- Contents by name. A slash in a name stands for a directory on the way. Names that do not begin
with one start at home. -/
structure Directory where
  files : List (Bytes × Bytes) := []
  home : List Bytes := [utf8 "home"]
  deriving DecidableEq, Repr

namespace Directory

def slash : UInt8 := 47

def steps (name : Bytes) : List Bytes := (Bytes.splitAt slash name).filter (! ·.isEmpty)

def start (dir : Directory) (name : Bytes) : List Bytes :=
  if name.head? = some slash then [] else dir.home

def placeOf (dir : Directory) (name : Bytes) : List Bytes := dir.start name ++ steps name

inductive Node
  | file (content : Bytes)
  | directory
  deriving DecidableEq, Repr

def node? (dir : Directory) (place : List Bytes) : Option Node :=
  match dir.files.find? fun entry => dir.placeOf entry.1 = place with
  | some entry => some (.file entry.2)
  | none =>
    if place.isPrefixOf dir.home ||
        dir.files.any fun entry => place.isPrefixOf (dir.placeOf entry.1) then
      some .directory
    else none

/-- Follows the steps of a path from a place. Above the root there is only the root. -/
def follow (dir : Directory) (place : List Bytes) : List Bytes → Except FileReason Node
  | [] =>
    match dir.node? place with
    | some node => .ok node
    | none => .error .missing
  | step :: rest =>
    match dir.node? place with
    | none => .error .missing
    | some (.file _) => .error .notDirectory
    | some .directory =>
      if step = utf8 "." then follow dir place rest
      else if step = utf8 ".." then follow dir place.dropLast rest
      else if 255 < step.length then .error .nameTooLong
      else follow dir (place ++ [step]) rest

/-- The node that a name leads to. A name that ends in a slash asks for a directory. -/
def resolve (dir : Directory) (name : Bytes) : Except FileReason Node :=
  if name.contains 0 then .error .invalidName
  else if name.isEmpty then .error .missing
  else if 4096 ≤ name.length then .error .nameTooLong
  else
    match dir.follow (dir.start name) (steps name) with
    | .ok (.file content) =>
      if name.getLast? = some slash then .error .notDirectory else .ok (.file content)
    | other => other

def load (dir : Directory) : Files := fun name =>
  match dir.resolve name with
  | .ok (.file content) => .ok content
  | .ok .directory => .error ⟨true, name, utf8 FileReason.isDirectory.message⟩
  | .error reason => .error ⟨false, name, utf8 reason.message⟩

end Directory

end Sardine
