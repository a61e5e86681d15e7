import Sardine.Proofs.Schedule

/-! The history of a sequence of calls.
Steps, runs and suspended calls that go on pass through phases, one after the other. In each phase a
step is begun, or a step that was waiting goes on. Whatever is to hold along all calls has to be
shown for one phase and for what others do to the queue. -/
namespace Sardine

/-- Where a machine stands: it can begin a step, or it is in the middle of one and waits. -/
inductive Phase
  | ready (m : Machine)
  | waiting (w : Wait) (m : Machine)

namespace Phase

def machine : Phase → Machine
  | ready m => m
  | waiting _ m => m

def step : Phase → Machine.Step
  | ready m => m.step
  | waiting w m => Machine.resume w m

def ofStep : Machine.Step → Phase
  | .returned _ m => ready m
  | .waiting w m => waiting w m
  | .crashed _ m => ready m

def next (p : Phase) : Phase := ofStep p.step

def withInput (input : Input) : Phase → Phase
  | ready m => ready (m.withInput input)
  | waiting w m => waiting w (m.withInput input)

@[simp] theorem machine_ofStep (s : Machine.Step) : (ofStep s).machine = s.machine := by
  cases s <;> rfl

@[simp] theorem machine_withInput (input : Input) (p : Phase) :
    (p.withInput input).machine = p.machine.withInput input := by
  cases p <;> rfl

/-- From one phase to another, through the phases in between. Others may write to the queue at any
time. -/
inductive Passes (start : Phase) : List Phase → Phase → Prop
  | start : Passes start [] start
  | supply {past : List Phase} {p : Phase} {held : Queue} (h : Passes start past p)
      (hqueue : p.machine.channels.input = .queue held) (q : Queue) :
      Passes start past (p.withInput (.queue q))
  | pass {past : List Phase} {p : Phase} (h : Passes start past p) :
      Passes start (past ++ [p]) p.next

theorem Passes.trans {start middle last : Phase} {past more : List Phase}
    (h : Passes start past middle) (hmore : Passes middle more last) :
    Passes start (past ++ more) last := by
  induction hmore with
  | start => rwa [List.append_nil]
  | supply _ hqueue q ih => exact Passes.supply ih hqueue q
  | pass _ ih =>
    rw [← List.append_assoc]
    exact Passes.pass ih

theorem Passes.once (p : Phase) : Passes p [p] p.next := Passes.pass Passes.start

end Phase

namespace Machine

/-- The phases of a run, one after the other. -/
def runPhases : Nat → Machine → List Phase
  | 0, _ => []
  | fuel + 1, m => .ready m :: if m.step.goesOn then runPhases fuel m.step.machine else []

def followPhases (fuel : Nat) (p : Phase) : List Phase :=
  p :: if p.step.goesOn then runPhases fuel p.step.machine else []

end Machine

namespace Session

open Machine

def phase (s : Session) : Phase :=
  match s.suspended with
  | none => .ready s.machine
  | some (_, w) => .waiting w s.machine

def resumePhases (fuel : Nat) (s : Session) : List Phase :=
  match s.suspended with
  | none => []
  | some (.step, _) => [s.phase]
  | some (.run, _) => followPhases fuel s.phase

def phasesOf (s : Session) : Action → List Phase
  | .step => if s.isBusy then [] else [s.phase]
  | .run fuel => if s.isBusy then [] else runPhases fuel s.machine
  | .produce p fuel =>
    (s.queue?.bind p.refreshed?).elim [] fun q => resumePhases fuel (s.withQueue q)

def history (s : Session) : List Action → List Phase
  | [] => []
  | action :: actions => s.phasesOf action ++ (s.act action).2.history actions

@[simp] theorem machine_phase (s : Session) : s.phase.machine = s.machine := by
  obtain ⟨m, _ | ⟨activity, w⟩⟩ := s <;> rfl

@[simp] theorem phase_ofStep (activity : Activity) (s : Step) :
    (ofStep activity s).2.phase = Phase.ofStep s := by
  cases s <;> rfl

theorem phase_withQueue (q : Queue) (s : Session) :
    (s.withQueue q).phase = s.phase.withInput (.queue q) := by
  obtain ⟨m, _ | ⟨activity, w⟩⟩ := s <;> rfl

theorem input_of_queue? {s : Session} {q : Queue} (h : s.queue? = some q) :
    s.machine.channels.input = .queue q := by
  unfold queue? at h
  split at h
  · rename_i heq
    rw [heq, Option.some.inj h]
  · simp at h

/-- What runs from a machine at rest pass through, a run passes through that goes on. -/
theorem passes_follow {fuel : Nat}
    (hrun : ∀ m, Phase.Passes (.ready m) (runPhases fuel m) (ofRun (Machine.run fuel m)).2.phase)
    (p : Phase) :
    Phase.Passes p (followPhases fuel p) (ofRun (Machine.follow fuel p.step)).2.phase := by
  rw [followPhases, Machine.follow]
  by_cases hgoes : p.step.goesOn = true
  · obtain ⟨m, hstep⟩ : ∃ m, p.step = .returned none m := by
      cases hstep : p.step with
      | returned error m => cases error <;> simp_all [Step.goesOn]
      | _ => simp [hstep, Step.goesOn] at hgoes
    have hnext : p.next = .ready m := by rw [Phase.next, hstep, Phase.ofStep]
    have honce := Phase.Passes.once p
    rw [hnext] at honce
    rw [if_pos hgoes, if_pos hgoes, hstep]
    exact honce.trans (hrun m)
  · rw [if_neg hgoes, if_neg hgoes, ofRun, phase_ofStep]
    exact Phase.Passes.once p

theorem passes_run (fuel : Nat) (m : Machine) :
    Phase.Passes (.ready m) (runPhases fuel m) (ofRun (Machine.run fuel m)).2.phase := by
  induction fuel generalizing m with
  | zero => exact Phase.Passes.start
  | succ fuel ih =>
    rw [run_succ]
    exact passes_follow ih (.ready m)

theorem passes_resume (fuel : Nat) (s : Session) :
    Phase.Passes s.phase (s.resumePhases fuel) (s.resume fuel).2.phase := by
  obtain ⟨m, suspended⟩ := s
  match suspended with
  | none => exact Phase.Passes.start
  | some (.step, w) =>
    simp only [resumePhases, Session.resume, phase_ofStep]
    exact Phase.Passes.once (.waiting w m)
  | some (.run, w) =>
    simp only [resumePhases, Session.resume, resumeRun_eq]
    exact passes_follow (passes_run fuel) (.waiting w m)

theorem passes_act (s : Session) (action : Action) :
    Phase.Passes s.phase (s.phasesOf action) (s.act action).2.phase := by
  cases action with
  | step =>
    obtain ⟨m, _ | held⟩ := s
    · simp only [act, step, phase_ofStep]
      exact Phase.Passes.once (.ready m)
    · exact Phase.Passes.start
  | run fuel =>
    obtain ⟨m, _ | held⟩ := s
    · exact passes_run fuel m
    · exact Phase.Passes.start
  | produce p fuel =>
    rw [act, produce_eq, phasesOf]
    cases hfresh : s.queue?.bind p.refreshed? with
    | none => exact Phase.Passes.start
    | some fresh =>
      obtain ⟨q, hqueue, -⟩ := Option.bind_eq_some_iff.mp hfresh
      have hinput : s.phase.machine.channels.input = .queue q := by
        rw [machine_phase]
        exact input_of_queue? hqueue
      have hsupply := Phase.Passes.start.supply hinput fresh
      rw [← phase_withQueue] at hsupply
      exact hsupply.trans (passes_resume fuel (s.withQueue fresh))

theorem passes_actAll (s : Session) (actions : List Action) :
    Phase.Passes s.phase (s.history actions) (s.actAll actions).2.phase := by
  induction actions generalizing s with
  | nil => exact Phase.Passes.start
  | cons action actions ih => exact (s.passes_act action).trans (ih _)

end Session

end Sardine
