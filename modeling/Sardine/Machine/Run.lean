import Sardine.Machine.Step

/-! Running a machine: steps until the program ends, fails or has to wait.
A program may never end, so a run is given a number of steps to make at most. -/
namespace Sardine.Machine

inductive Run
  | settled (s : Step)
  | unfinished (m : Machine)

/-- At most `fuel` steps. -/
def run : Nat → Machine → Run
  | 0, m => .unfinished m
  | fuel + 1, m =>
    match m.step with
    | .returned none after =>
      if after.status = .ended then .settled (.returned none after) else run fuel after
    | other => .settled other

def resumeRun (fuel : Nat) (w : Wait) (m : Machine) : Run :=
  match Machine.resume w m with
  | .returned none after =>
    if after.status = .ended then .settled (.returned none after) else run fuel after
  | other => .settled other

@[simp] theorem run_zero (m : Machine) : run 0 m = .unfinished m := rfl

end Sardine.Machine
