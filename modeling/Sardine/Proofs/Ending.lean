import Sardine.Proofs.Attempts
import Sardine.Proofs.Schedule

/-! The end of a program.
A program ends once, in one call, and that call shuts the output after all that has been written to
it. No call before it closes the output, and every call after it says that the program has ended and
changes nothing. -/
namespace Sardine

namespace Machine

/-- An execution of a running machine, whose output has come from a given one by work. -/
structure Execution.Working (output : Output) (x : Execution) : Prop where
  status : x.machine.status = .running
  output : output.Worked x.machine.channels.output

theorem Leads.working {m : Machine} {x : Execution} (h : m.Leads x) {output : Output}
    (hstatus : m.status = .running) (hworked : output.Worked m.channels.output) :
    x.Working output :=
  ⟨h.status.trans hstatus, hworked.trans h.output⟩

theorem Execution.Working.ends {output : Output} {x : Execution} (h : x.Working output)
    {error : Option Error} {last : Machine} (hends : x.Ends error last) :
    output.Worked last.channels.output := by
  have hworked := h.output
  rwa [hends.machine_eq] at hworked

/-- The stages of a machine: its output is being worked on as long as it runs, and has been shut
when it has ended. -/
inductive Stage (output : Output) (m : Machine) : Prop
  | working (hstatus : m.status = .running) (h : output.Worked m.channels.output)
  | ended (hstatus : m.status = .ended) (work : Output) (h : output.Worked work)
      (hshut : m.channels.output = work.shut)

/-- What calls on a machine keep whose output can always be shut. -/
def staging (output : Output) : Session.Contract where
  idle m := m.Stage output
  held _ m := m.status = .running ∧ output.Worked m.channels.output
  reply r := ∀ text, r ≠ .crashed text

section Staging

variable {output : Output} (hshuts : output.AlwaysShuts)
include hshuts

theorem Execution.Working.afterStep {x : Execution} (h : x.Working output) :
    (staging output).AfterStep (settle x) := by
  have hsettles := settles x
  generalize settle x = s at hsettles ⊢
  cases hsettles with
  | goes _ => exact ⟨by simp [staging], Stage.working h.status h.output⟩
  | waits w m => exact ⟨by simp [staging], h.status, h.output⟩
  | ends hends _ => exact ⟨by simp [staging], Stage.ended rfl _ (h.ends hends) rfl⟩
  | crashes hends hcrash _ _ => exact absurd (hshuts _ (h.ends hends)) hcrash

theorem Stage.step {m : Machine} (h : m.Stage output) : (staging output).AfterStep m.step := by
  cases h with
  | working hstatus hworked =>
    rw [step_of_running hstatus]
    exact (m.leads_attempt.working hstatus hworked).afterStep hshuts
  | ended hstatus work hwork hshut =>
    rw [step_of_ended hstatus]
    exact ⟨by simp [staging], Stage.ended hstatus work hwork hshut⟩

theorem staging_kept : (staging output).Kept where
  unfinished := by simp [staging]
  step h := Stage.step hshuts h
  resume {w m} h := by
    rw [resume_eq]
    exact ((leads_goOn w m).working h.1 h.2).afterStep hshuts
  idle_queue _ h := by
    cases h with
    | working hstatus hworked => exact Stage.working hstatus hworked
    | ended hstatus work hwork hshut => exact Stage.ended hstatus work hwork hshut
  held_queue _ h := h

end Staging

/-- The execution to which a run comes from a given one, with so many more steps at most. -/
def followTo : Nat → Execution → Execution
  | 0, x => x
  | fuel + 1, x => if (settle x).goesOn then followTo fuel (settle x).machine.attempt else x

theorem running_of_goesOn {s : Step} (h : s.goesOn = true) : s.machine.status = .running := by
  cases s with
  | returned error m =>
    cases error with
    | none =>
      have hnot : m.status ≠ .ended := by simpa [Step.goesOn] using h
      cases hstatus : m.status with
      | running => exact hstatus
      | ended => exact absurd hstatus hnot
    | some e => simp [Step.goesOn] at h
  | _ => simp [Step.goesOn] at h

/-- A run that has come to an execution is settled as the last of its executions is, unless it is
cut short. -/
theorem follow_settle (fuel : Nat) (x : Execution) :
    follow fuel (settle x) =
      if (settle (followTo fuel x)).goesOn then .unfinished (settle (followTo fuel x)).machine
      else .settled (settle (followTo fuel x)) := by
  induction fuel generalizing x with
  | zero => rfl
  | succ fuel ih =>
    by_cases hgoes : (settle x).goesOn = true
    · have hstep := step_of_running (running_of_goesOn hgoes)
      rw [follow, if_pos hgoes, run_succ, hstep, ih, followTo, if_pos hgoes]
    · rw [followTo, if_neg hgoes, follow, if_neg hgoes]
      simp [hgoes]

theorem Execution.Working.goesOn {output : Output} {x : Execution} (h : x.Working output)
    (hgoes : (settle x).goesOn = true) : output.Worked (settle x).machine.channels.output := by
  have hrunning := running_of_goesOn hgoes
  have hsettles := settles x
  generalize settle x = s at hsettles hgoes hrunning ⊢
  cases hsettles with
  | goes _ => exact h.output
  | waits w m => simp [Step.goesOn] at hgoes
  | ends _ _ => simp [Step.machine, shutDown] at hrunning
  | crashes _ _ text after => simp [Step.goesOn] at hgoes

theorem Execution.Working.followTo {output : Output} {x : Execution} (h : x.Working output)
    (fuel : Nat) : (Machine.followTo fuel x).Working output := by
  induction fuel generalizing x with
  | zero => exact h
  | succ fuel ih =>
    by_cases hgoes : (settle x).goesOn = true
    · rw [Machine.followTo, if_pos hgoes]
      exact ih ((leads_attempt _).working (running_of_goesOn hgoes) (h.goesOn hgoes))
    · rw [Machine.followTo, if_neg hgoes]
      exact h

end Machine

namespace Session

open Machine

def resumedTo? (fuel : Nat) (s : Session) : Option Execution :=
  match s.suspended with
  | none => none
  | some (.step, w) => some (s.machine.goOn w)
  | some (.run, w) => some (followTo fuel (s.machine.goOn w))

def lastExecution? (s : Session) : Action → Option Execution
  | .step => if s.isBusy then none else some s.machine.attempt
  | .run 0 => none
  | .run (fuel + 1) => if s.isBusy then none else some (followTo fuel s.machine.attempt)
  | .produce p fuel => (s.queue?.bind p.refreshed?).bind fun q => (s.withQueue q).resumedTo? fuel

/-- How a call comes back, by its last execution: as that is settled, or unfinished if it is a run
that could have gone on. -/
inductive ComesTo (x : Execution) : Option Reply × Session → Prop
  | settled (activity : Activity) :
      ComesTo x (some (ofStep activity (settle x)).1, (ofStep activity (settle x)).2)
  | cutShort (h : (settle x).goesOn = true) :
      ComesTo x (some .unfinished, { machine := (settle x).machine })

theorem ofRun_comesTo (fuel : Nat) (x : Execution) :
    ComesTo (followTo fuel x)
      (some (ofRun (follow fuel (settle x))).1, (ofRun (follow fuel (settle x))).2) := by
  rw [follow_settle]
  by_cases hgoes : (settle (followTo fuel x)).goesOn = true
  · rw [if_pos hgoes]
    exact ComesTo.cutShort hgoes
  · rw [if_neg hgoes]
    exact ComesTo.settled .run

section ComesTo

variable {x : Execution} {result : Option Reply × Session} (h : ComesTo x result)
include h

theorem ComesTo.of_ends {error : Option Error} {last : Machine} (hends : x.Ends error last)
    (hshuts : last.channels.output.Shuts) :
    result = (some (.returned (last.firstError error)), { machine := last.shutDown }) := by
  have hsettle := hends.settle_of_shuts hshuts
  cases h with
  | settled activity => simp [hsettle, ofStep]
  | cutShort hgoes =>
    have hrunning := running_of_goesOn hgoes
    simp [hsettle, Step.machine, shutDown] at hrunning

/-- Nothing else ends the program. -/
theorem ComesTo.exists_ends (hrunning : x.machine.status = .running)
    (hended : result.2.machine.status = .ended) : ∃ error last, x.Ends error last := by
  cases h with
  | cutShort hgoes => exact absurd ((running_of_goesOn hgoes).symm.trans hended) (by simp)
  | settled activity =>
    have hsettles := settles x
    generalize settle x = s at hsettles hended
    cases hsettles with
    | goes _ => exact absurd (hrunning.symm.trans hended) (by simp)
    | waits w m => exact absurd (hrunning.symm.trans hended) (by simp)
    | @ends _ error last hends _ => exact ⟨error, last, hends⟩
    | @crashes _ error last hends _ _ _ => exact ⟨error, last, hends⟩

end ComesTo

theorem act_of_busy {s : Session} (h : s.isBusy = true) :
    s.act .step = (none, s) ∧ ∀ fuel, s.act (.run fuel) = (none, s) := by
  obtain ⟨m, suspended⟩ := s
  cases suspended with
  | none => simp [isBusy] at h
  | some held => exact ⟨rfl, fun _ => rfl⟩

theorem act_step {s : Session} (h : s.isBusy = false) :
    s.act .step = (some (ofStep .step s.machine.step).1, (ofStep .step s.machine.step).2) := by
  obtain ⟨m, suspended⟩ := s
  cases suspended with
  | none => rfl
  | some held => simp [isBusy] at h

theorem act_run {s : Session} (h : s.isBusy = false) (fuel : Nat) :
    s.act (.run fuel) =
      (some (ofRun (Machine.run fuel s.machine)).1, (ofRun (Machine.run fuel s.machine)).2) := by
  obtain ⟨m, suspended⟩ := s
  cases suspended with
  | none => rfl
  | some held => simp [isBusy] at h

theorem resume_of_resumedTo {s : Session} {fuel : Nat} {x : Execution}
    (hx : s.resumedTo? fuel = some x) : ComesTo x (s.resume fuel) := by
  obtain ⟨m, suspended⟩ := s
  match suspended with
  | none => simp [resumedTo?] at hx
  | some (.step, w) =>
    obtain rfl : m.goOn w = x := Option.some.inj hx
    exact ComesTo.settled .step
  | some (.run, w) =>
    obtain rfl : followTo fuel (m.goOn w) = x := Option.some.inj hx
    have hrun := resumeRun_eq fuel w m
    rw [resume_eq] at hrun
    simp only [resume, hrun]
    exact ofRun_comesTo fuel (m.goOn w)

theorem resume_of_resumedTo_none {s : Session} {fuel : Nat} (hnone : s.resumedTo? fuel = none) :
    s.resume fuel = (none, s) := by
  obtain ⟨m, suspended⟩ := s
  rcases suspended with _ | ⟨activity, w⟩
  · rfl
  · cases activity <;> simp [resumedTo?] at hnone

theorem resumedTo_working {s : Session} (hstatus : s.machine.status = .running) {fuel : Nat}
    {x : Execution} (hx : s.resumedTo? fuel = some x) :
    x.Working s.machine.channels.output := by
  obtain ⟨m, suspended⟩ := s
  match suspended with
  | none => simp [resumedTo?] at hx
  | some (.step, w) =>
    obtain rfl : m.goOn w = x := Option.some.inj hx
    exact (leads_goOn w m).working hstatus (Output.Worked.refl _)
  | some (.run, w) =>
    obtain rfl : followTo fuel (m.goOn w) = x := Option.some.inj hx
    exact ((leads_goOn w m).working hstatus (Output.Worked.refl _)).followTo fuel

section Act

variable {s : Session} (hstatus : s.machine.status = .running)
include hstatus

theorem act_of_lastExecution {action : Action} {x : Execution}
    (hx : s.lastExecution? action = some x) :
    ComesTo x (s.act action) ∧ x.Working s.machine.channels.output := by
  have hworking := s.machine.leads_attempt.working hstatus (Output.Worked.refl _)
  have hstep := step_of_running hstatus
  cases action with
  | step =>
    by_cases hbusy : s.isBusy = true
    · simp [lastExecution?, hbusy] at hx
    · obtain rfl : s.machine.attempt = x := by simpa [lastExecution?, hbusy] using hx
      rw [act_step (by simpa using hbusy), hstep]
      exact ⟨ComesTo.settled .step, hworking⟩
  | run fuel =>
    cases fuel with
    | zero => simp [lastExecution?] at hx
    | succ fuel =>
      by_cases hbusy : s.isBusy = true
      · simp [lastExecution?, hbusy] at hx
      · obtain rfl : followTo fuel s.machine.attempt = x := by
          simpa [lastExecution?, hbusy] using hx
        rw [act_run (by simpa using hbusy), run_succ, hstep]
        exact ⟨ofRun_comesTo fuel _, hworking.followTo fuel⟩
  | produce p fuel =>
    obtain ⟨q, hq, hx⟩ := Option.bind_eq_some_iff.mp hx
    rw [act, produce_eq, hq]
    exact ⟨resume_of_resumedTo hx, resumedTo_working (s := s.withQueue q) hstatus hx⟩

theorem running_of_lastExecution {action : Action} (hnone : s.lastExecution? action = none) :
    (s.act action).2.machine.status = .running := by
  cases action with
  | step =>
    by_cases hbusy : s.isBusy = true
    · rw [(act_of_busy hbusy).1]
      exact hstatus
    · simp [lastExecution?, hbusy] at hnone
  | run fuel =>
    by_cases hbusy : s.isBusy = true
    · rw [(act_of_busy hbusy).2]
      exact hstatus
    · cases fuel with
      | zero =>
        rw [act_run (by simpa using hbusy)]
        exact hstatus
      | succ fuel => simp [lastExecution?, hbusy] at hnone
  | produce p fuel =>
    rw [act, produce_eq]
    cases hqueue : s.queue?.bind p.refreshed? with
    | none => exact hstatus
    | some q =>
      -- Only a suspended call notices the new queue, and none is suspended.
      rw [lastExecution?, hqueue] at hnone
      rw [Option.elim_some, resume_of_resumedTo_none hnone]
      exact hstatus

end Act

/-- After the end, calls say so and do nothing else. -/
theorem act_of_ended {s : Session} (hstatus : s.machine.status = .ended) (hidle : s.isBusy = false)
    (fuel : Nat) :
    s.act .step = (some (.returned (some ⟨.ended, []⟩)), s) ∧
      s.act (.run (fuel + 1)) = (some (.returned (some ⟨.ended, []⟩)), s) := by
  have hstep := step_of_ended hstatus
  rw [act_step hidle, act_run hidle, run_succ, hstep]
  obtain ⟨m, suspended⟩ := s
  cases suspended with
  | none => exact ⟨rfl, rfl⟩
  | some held => simp [isBusy] at hidle

theorem isBusy_of_staging {output : Output} {s : Session} (h : (staging output).Holds s)
    (hstatus : s.machine.status = .ended) : s.isBusy = false := by
  obtain ⟨m, suspended⟩ := s
  match suspended with
  | none => rfl
  | some (_, w) =>
    have hrunning : m.status = .running := h.1
    simp [hrunning] at hstatus

theorem stage_of_staging {output : Output} {s : Session} (h : (staging output).Holds s) :
    s.machine.Stage output := by
  obtain ⟨m, suspended⟩ := s
  match suspended with
  | none => exact h
  | some (_, w) => exact Stage.working h.1 h.2

end Session

namespace Machine

theorem status_set {m after : Machine} {setting : Setting} (h : m.set setting = .ok after) :
    after.status = m.status := by
  cases setting with
  | memorySize size =>
    simp only [set] at h
    split at h
    · simp at h
    · split at h
      · simp at h
      · rw [← Outcome.ok.inj h]
  | _ => rw [← Outcome.ok.inj h]

theorem status_setAll {m after : Machine} {settings : List Setting}
    (h : m.setAll settings = (.ok (), after)) : after.status = m.status := by
  induction settings generalizing m with
  | nil => rw [← (Prod.mk.inj h).2]
  | cons setting settings ih =>
    cases hset : m.set setting with
    | ok next =>
      rw [setAll, hset] at h
      exact (ih h).trans (status_set hset)
    | failed e => simp [setAll, hset] at h
    | crashed text => simp [setAll, hset] at h

theorem status_create {program : Option Program} {settings : List Setting} {m : Machine}
    (h : create program settings = .ok m) : m.status = .running := by
  unfold create at h
  split at h
  · simp at h
  · split at h
    · simp at h
    · split at h
      · rename_i hall
        rw [← Outcome.ok.inj h]
        exact status_setAll hall
      all_goals simp at h

end Machine

/-- Of a machine whose output can always be shut, no call crashes, and as long as the program runs
the output is written to and flushed but not closed. The program ends in the call whose last
execution moves past the end, exits or fails, and in no other; this call shuts the output after its
last write and says the first thing that went wrong. Later calls say that the program has ended and
change nothing. -/
theorem ends_once {program : Option Program} {settings : List Machine.Setting} {m : Machine}
    (hcreate : Machine.create program settings = .ok m)
    (hshuts : m.channels.output.AlwaysShuts) (actions : List Session.Action) :
    let replies := (Session.actAll { machine := m } actions).1
    let s := (Session.actAll { machine := m } actions).2
    (∀ text, .crashed text ∉ replies) ∧
      (s.machine.status = .running →
        m.channels.output.Worked s.machine.channels.output ∧
          Unclosed m.channels.output.calls s.machine.channels.output.calls) ∧
      (∀ action, s.machine.status = .running → (s.act action).2.machine.status = .ended →
        ∃ x error last, s.lastExecution? action = some x ∧ x.Ends error last) ∧
      (∀ action x error last, s.machine.status = .running → s.lastExecution? action = some x →
        x.Ends error last →
          s.act action =
              (some (.returned (last.firstError error)), { machine := last.shutDown }) ∧
            s.machine.channels.output.Worked last.channels.output ∧
            Unclosed s.machine.channels.output.calls last.channels.output.calls ∧
            ∀ device, last.channels.output = .direct device →
              last.shutDown.channels.output.calls.toList = device.calls.toList ++
                (if device.canFlush then
                  [.flush last.channels.output.flush.1.error?.isNone] else []) ++
                (if device.canClose then
                  [.close last.channels.output.flush.2.close.1.error?.isNone] else [])) ∧
      (s.machine.status = .ended →
        (∃ work, m.channels.output.Worked work ∧ s.machine.channels.output = work.shut) ∧
          ∀ fuel, s.act .step = (some (.returned (some ⟨.ended, []⟩)), s) ∧
            s.act (.run (fuel + 1)) = (some (.returned (some ⟨.ended, []⟩)), s)) := by
  intro replies s
  have hstart : (Machine.staging m.channels.output).Holds { machine := m } :=
    Machine.Stage.working (Machine.status_create hcreate) (Output.Worked.refl _)
  obtain ⟨hreplies, hholds⟩ := (Machine.staging_kept hshuts).actAll hstart actions
  have hstage := Session.stage_of_staging hholds
  have hrunning : s.machine.status = .running →
      m.channels.output.Worked s.machine.channels.output := by
    intro hstatus
    cases hstage with
    | working _ hworked => exact hworked
    | ended hended => exact absurd (hended.symm.trans hstatus) (by simp)
  refine ⟨fun text hmem => hreplies _ hmem text rfl, fun hstatus => ?_, ?_, ?_, fun hstatus => ?_⟩
  · exact ⟨hrunning hstatus, (hrunning hstatus).unclosed⟩
  · intro action hstatus hended
    cases hx : s.lastExecution? action with
    | none =>
      have hstays := Session.running_of_lastExecution hstatus hx
      exact absurd (hstays.symm.trans hended) (by simp)
    | some x =>
      obtain ⟨hcomes, hworking⟩ := Session.act_of_lastExecution hstatus hx
      obtain ⟨error, last, hends⟩ := hcomes.exists_ends hworking.status hended
      exact ⟨x, error, last, rfl, hends⟩
  · intro action x error last hstatus hx hends
    obtain ⟨hcomes, hworking⟩ := Session.act_of_lastExecution hstatus hx
    have hworked := hworking.ends hends
    have hlast := hshuts _ ((hrunning hstatus).trans hworked)
    refine ⟨hcomes.of_ends hends hlast, hworked, hworked.unclosed, fun device hdevice => ?_⟩
    rw [hdevice] at hlast
    rw [Machine.shutDown, hdevice]
    exact Output.calls_shut_direct hlast
  · refine ⟨?_, Session.act_of_ended hstatus (Session.isBusy_of_staging hholds hstatus)⟩
    cases hstage with
    | working hrun => exact absurd (hrun.symm.trans hstatus) (by simp)
    | ended _ work hwork hshut => exact ⟨work, hwork, hshut⟩

/-- A device of which neither the last flush nor the close goes well: after `EXIT` both are on
record, the error is that of the flush, and the next run is told that the program has ended. -/
theorem ends_once_failingDevice :
    let device : Device :=
      { canFlush := true, canClose := true
        faults :=
          { flush := fun _ => some (.error (utf8 "gone"))
            close := fun _ => some (.error (utf8 "broken")) } }
    let m : Machine :=
      { program := ⟨#[{ op := .putChar }, { op := .exit }], []⟩
        mem := #[0]
        channels := { output := .direct device } }
    let start : Session := { machine := m }
    let s := (start.actAll [.step]).2
    let ended := (start.actAll [.step, .step]).2
    Unclosed device.calls s.machine.channels.output.calls ∧
      (∃ x error last, s.lastExecution? .step = some x ∧ x.Ends error last ∧
        s.act .step = (some (.returned (last.firstError error)), { machine := last.shutDown }) ∧
        last.firstError error = some ⟨.sink (utf8 "gone"), [Channels.flushNote]⟩ ∧
        last.shutDown.channels.output.calls = #[.write true [0], .flush false, .close false]) ∧
      ended.act (.run 9) = (some (.returned (some ⟨.ended, []⟩)), ended) := by
  intro device m start s ended
  have hcreate : Machine.create (some m.program) [.memorySize 1, .output (.direct device)] =
      .ok m := rfl
  have hcalm : m.channels.output.Calm :=
    ⟨fun _ _ _ => by simp [device], fun _ _ _ => by simp [device], fun _ _ _ => by simp [device]⟩
  have hshuts := hcalm.alwaysShuts
  obtain ⟨-, hopen, hends, hshut, -⟩ := ends_once hcreate hshuts [.step]
  obtain ⟨-, -, -, -, hended⟩ := ends_once hcreate hshuts [.step, .step]
  have hrunning : s.machine.status = .running := by decide +kernel
  obtain ⟨x, error, last, hx, hlast⟩ := hends .step hrunning (by decide +kernel)
  obtain ⟨hact, -⟩ := hshut .step x error last hrunning hx hlast
  have hreply : (s.act .step).1 =
      some (.returned (some ⟨.sink (utf8 "gone"), [Channels.flushNote]⟩)) := by
    decide +kernel
  have hcalls : (s.act .step).2.machine.channels.output.calls =
      #[.write true [0], .flush false, .close false] := by
    decide +kernel
  rw [hact] at hreply hcalls
  refine ⟨(hopen hrunning).2, ⟨x, error, last, hx, hlast, hact, ?_, hcalls⟩, ?_⟩
  · simpa using hreply
  · exact ((hended (by decide +kernel)).2 8).2

end Sardine
