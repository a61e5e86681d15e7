import Sardine.Proofs.Reception

/-! Programs do not notice when their input arrives.
However the bytes are split and however writing them is interleaved with the calls, the steps that
come to their end are, one by one, those made with all bytes at hand from the start. -/
namespace Sardine

namespace Machine

def Step.blind (s : Step) : Step := s.withInput .absent

theorem blind_withInput (s : Step) (input : Input) : (s.withInput input).blind = s.blind := by
  cases s <;> rfl

/-- The machine after a number of steps, whatever they return. -/
def stepped (m : Machine) : Nat → Machine
  | 0 => m
  | k + 1 => m.step.machine.stepped k

def Step.goesOn : Step → Bool
  | returned none m => m.status ≠ .ended
  | _ => false

def runSteps : Nat → Machine → List Step
  | 0, _ => []
  | fuel + 1, m => m.step :: if m.step.goesOn then runSteps fuel m.step.machine else []

def followSteps (fuel : Nat) (s : Step) : List Step :=
  s :: if s.goesOn then runSteps fuel s.machine else []

def follow (fuel : Nat) (s : Step) : Run :=
  if s.goesOn then run fuel s.machine else .settled s

theorem follow_eq (fuel : Nat) (s : Step) :
    follow fuel s =
      match s with
      | .returned none after =>
        if after.status = .ended then .settled (.returned none after) else run fuel after
      | other => .settled other := by
  cases s with
  | returned error after =>
    cases error with
    | none => by_cases h : after.status = .ended <;> simp [follow, Step.goesOn, Step.machine, h]
    | some e => rfl
  | waiting w after => rfl
  | crashed text after => rfl

theorem run_succ (fuel : Nat) (m : Machine) : run (fuel + 1) m = follow fuel m.step :=
  (follow_eq fuel m.step).symm

theorem resumeRun_eq (fuel : Nat) (w : Wait) (m : Machine) :
    resumeRun fuel w m = follow fuel (Machine.resume w m) :=
  (follow_eq fuel (Machine.resume w m)).symm

/-- Steps that are made by a machine, one after the other, but for the input. -/
inductive Follows : Machine → List Step → Machine → Prop
  | nil (m : Machine) : Follows m [] m
  | cons {m after : Machine} {s : Step} {steps : List Step} (h : s.blind = m.step.blind)
      (hrest : Follows m.step.machine steps after) : Follows m (s :: steps) after

theorem Follows.append {m after last : Machine} {steps more : List Step}
    (h : Follows m steps after) (hmore : Follows after more last) :
    Follows m (steps ++ more) last := by
  induction h with
  | nil m => exact hmore
  | cons hstep _ ih => exact Follows.cons hstep (ih hmore)

theorem Follows.map_blind {m after : Machine} {steps : List Step} (h : Follows m steps after) :
    steps.map Step.blind = (List.range steps.length).map fun k => (m.stepped k).step.blind := by
  induction h with
  | nil m => rfl
  | cons hstep _ ih =>
    rw [List.map_cons, ih, List.length_cons, List.range_succ_eq_map, List.map_cons, List.map_map,
      hstep]
    rfl

end Machine

namespace Session

open Machine

def resumeSteps (fuel : Nat) (s : Session) : List Step :=
  match s.suspended with
  | none => []
  | some (.step, w) => [Machine.resume w s.machine]
  | some (.run, w) => followSteps fuel (Machine.resume w s.machine)

/-- The steps made in an action; the last of them may have to wait. -/
def stepsOf (s : Session) : Action → List Step
  | .step => if s.isBusy then [] else [s.machine.step]
  | .run fuel => if s.isBusy then [] else runSteps fuel s.machine
  | .produce p fuel =>
    (s.queue?.bind p.refreshed?).elim [] fun q => resumeSteps fuel (s.withQueue q)

/-- All steps that come to their end in a sequence of actions. -/
def completed (s : Session) : List Action → List Step
  | [] => []
  | action :: actions =>
    (s.stepsOf action).filter Step.isThrough ++ (s.act action).2.completed actions

def productions (actions : List Action) : List Production :=
  actions.filterMap fun
    | .produce p _ => some p
    | _ => none

/-- As far as the actions go, they write the bytes piece by piece and then close the queue. -/
def Delivers (bytes : Bytes) (actions : List Action) : Prop :=
  ∃ pieces : List Bytes, pieces.flatten = bytes ∧
    productions actions <+: pieces.map Production.write ++ [.close]

/-- A session at a queue, and the machine that has the rest of the bytes at hand. -/
inductive Beside (closed : Bool) (rest : Bytes) : Session → Machine → Prop
  | idle {m : Machine} {held : Bytes} (h : m.channels.input = .queue ⟨held, closed⟩) :
      Beside closed rest { machine := m } (m.withInput (.bytes (held ++ rest)))
  | waiting {activity : Activity} {w : Wait} {m whole : Machine} (hopen : closed = false)
      (h : m.channels.input = .queue {})
      (hstep : whole.step = Machine.resume w (m.withInput (.bytes rest))) :
      Beside closed rest { machine := m, suspended := some (activity, w) } whole

/-- The machine with the rest at hand makes those of the steps that have come to their end, and is
then beside the session again. -/
def Advances (closed : Bool) (rest : Bytes) (whole : Machine) (steps : List Step) (s : Session) :
    Prop :=
  ∃ after, Follows whole (steps.filter Step.isThrough) after ∧ Beside closed rest s after

section Beside

variable {closed : Bool} {rest : Bytes} {whole : Machine}

theorem Beside.ofStep (activity : Activity) {s : Step}
    (h : Step.Beside closed rest s whole.step) :
    Advances closed rest whole [s] (Session.ofStep activity s).2 := by
  generalize hwhole : whole.step = t at h
  cases h with
  | @through s hthrough held hinput =>
    have hblind : s.blind = whole.step.blind := by rw [hwhole, blind_withInput]
    have hafter : whole.step.machine = s.machine.withInput (.bytes (held ++ rest)) := by
      rw [hwhole, machine_withInput]
    refine ⟨whole.step.machine, ?_, ?_⟩
    · rw [List.filter_cons_of_pos hthrough]
      exact Follows.cons hblind (Follows.nil _)
    · rw [hafter]
      cases s with
      | waiting w m => simp [Step.isThrough] at hthrough
      | _ => exact Beside.idle hinput
  | waits hopen w hinput => exact ⟨whole, Follows.nil whole, Beside.waiting hopen hinput hwhole⟩

/-- What runs from a machine at rest do, a run does that goes on from a step. -/
theorem Beside.follow {fuel : Nat}
    (hrun : ∀ {m : Machine} {held : Bytes}, m.channels.input = .queue ⟨held, closed⟩ →
      Advances closed rest (m.withInput (.bytes (held ++ rest))) (runSteps fuel m)
        (Session.ofRun (Machine.run fuel m)).2)
    {s : Step} (h : Step.Beside closed rest s whole.step) :
    Advances closed rest whole (followSteps fuel s) (Session.ofRun (Machine.follow fuel s)).2 := by
  obtain ⟨next, hnext, hbeside⟩ := Beside.ofStep .run h
  by_cases hgoes : s.goesOn = true
  · obtain ⟨m, rfl⟩ : ∃ m, s = .returned none m := by
      cases s with
      | returned error m => cases error <;> simp_all [Step.goesOn]
      | _ => simp [Step.goesOn] at hgoes
    cases hbeside with
    | idle hinput =>
      obtain ⟨after, hafter, hlast⟩ := hrun hinput
      rw [followSteps, Machine.follow, if_pos hgoes, if_pos hgoes]
      exact ⟨after, hnext.append hafter, hlast⟩
  · rw [followSteps, Machine.follow, if_neg hgoes, if_neg hgoes]
    exact ⟨next, hnext, hbeside⟩

variable (hrest : closed = true → rest = [])
include hrest

theorem Beside.run (fuel : Nat) {m : Machine} {held : Bytes}
    (h : m.channels.input = .queue ⟨held, closed⟩) :
    Advances closed rest (m.withInput (.bytes (held ++ rest))) (runSteps fuel m)
      (Session.ofRun (Machine.run fuel m)).2 := by
  induction fuel generalizing m held with
  | zero => exact ⟨_, Follows.nil _, Beside.idle h⟩
  | succ fuel ih =>
    rw [run_succ]
    exact Beside.follow ih (step_beside h hrest)

theorem Beside.resume (fuel : Nat) {s : Session} {held : Bytes} {activity : Activity} {w : Wait}
    (hqueue : s.machine.channels.input = .queue ⟨held, closed⟩)
    (hsuspended : s.suspended = some (activity, w))
    (hstep : whole.step = Machine.resume w (s.machine.withInput (.bytes (held ++ rest)))) :
    Advances closed rest whole (s.resumeSteps fuel) (s.resume fuel).2 := by
  have h : Step.Beside closed rest (Machine.resume w s.machine) whole.step := by
    rw [hstep]
    exact resume_beside hqueue hrest w
  cases activity with
  | step =>
    simp only [resumeSteps, Session.resume, hsuspended]
    exact Beside.ofStep .step h
  | run =>
    simp only [resumeSteps, Session.resume, hsuspended, resumeRun_eq]
    exact Beside.follow (Beside.run hrest fuel) h

theorem Beside.step {s : Session} (h : Beside closed rest s whole) :
    Advances closed rest whole (s.stepsOf .step) (s.act .step).2 := by
  cases h with
  | idle hinput => exact Beside.ofStep .step (step_beside hinput hrest)
  | waiting hopen hinput hstep =>
    exact ⟨whole, Follows.nil whole, Beside.waiting hopen hinput hstep⟩

theorem Beside.act_run (fuel : Nat) {s : Session} (h : Beside closed rest s whole) :
    Advances closed rest whole (s.stepsOf (.run fuel)) (s.act (.run fuel)).2 := by
  cases h with
  | idle hinput => exact Beside.run hrest fuel hinput
  | waiting hopen hinput hstep =>
    exact ⟨whole, Follows.nil whole, Beside.waiting hopen hinput hstep⟩

/-- A production that a suspended call can notice brings some of the rest, or ends it. -/
theorem Beside.produce (fuel : Nat) {p : Production} {bytes : Bytes}
    (hp : ∀ held, p.refreshed? ⟨held, false⟩ = some ⟨held ++ bytes, closed⟩) {s : Session}
    (h : Beside false (bytes ++ rest) s whole) :
    Advances closed rest whole (s.stepsOf (.produce p fuel)) (s.act (.produce p fuel)).2 := by
  cases h with
  | @idle m held hinput =>
    have hqueue : ({ machine := m } : Session).queue?.bind p.refreshed? =
        some ⟨held ++ bytes, closed⟩ := by
      simp [queue?, hinput, hp]
    have hidle : Beside closed rest (withQueue ⟨held ++ bytes, closed⟩ { machine := m })
        (m.withInput (.bytes (held ++ bytes ++ rest))) := Beside.idle rfl
    rw [List.append_assoc] at hidle
    rw [stepsOf, act, produce_eq, hqueue]
    exact ⟨_, Follows.nil _, hidle⟩
  | @waiting activity w m whole hopen hinput hstep =>
    have hqueue : ({ machine := m, suspended := some (activity, w) } : Session).queue?.bind
        p.refreshed? = some ⟨bytes, closed⟩ := by
      simp [queue?, hinput, hp]
    rw [stepsOf, act, produce_eq, hqueue]
    exact Beside.resume hrest fuel rfl rfl hstep

end Beside

theorem Beside.close (fuel : Nat) {s : Session} {whole : Machine} (h : Beside false [] s whole) :
    Advances true [] whole (s.stepsOf (.produce .close fuel)) (s.act (.produce .close fuel)).2 := by
  have hclose : ∀ held, Production.close.refreshed? ⟨held, false⟩ = some ⟨held ++ [], true⟩ := by
    simp [Production.refreshed?, Queue.close, Except.toOption]
  exact Beside.produce (fun _ => rfl) fuel hclose h

theorem Beside.write (fuel : Nat) (piece : Bytes) {rest : Bytes} {s : Session} {whole : Machine}
    (h : Beside false (piece ++ rest) s whole) :
    Advances false rest whole (s.stepsOf (.produce (.write piece) fuel))
      (s.act (.produce (.write piece) fuel)).2 := by
  by_cases hempty : piece = []
  · -- An empty write lets no call go on.
    subst hempty
    have hnone : s.queue?.bind (Production.write []).refreshed? = none := by
      cases s.queue? <;> simp [Production.refreshed?]
    rw [stepsOf, act, produce_eq, hnone]
    exact ⟨whole, Follows.nil whole, h⟩
  · have hwrite : ∀ held, (Production.write piece).refreshed? ⟨held, false⟩ =
        some ⟨held ++ piece, false⟩ := by
      simp [Production.refreshed?, Queue.write, Except.toOption, hempty]
    exact Beside.produce (by simp) fuel hwrite h

/-- What is still to be done to the queue when the rest of the bytes is outstanding. -/
def Awaits (closed : Bool) (rest : Bytes) (ps : List Production) : Prop :=
  match closed with
  | true => rest = [] ∧ ps = []
  | false => ∃ pieces : List Bytes, pieces.flatten = rest ∧
      ps <+: pieces.map Production.write ++ [.close]

theorem Awaits.rest_eq_nil {closed : Bool} {rest : Bytes} {ps : List Production}
    (h : Awaits closed rest ps) : closed = true → rest = [] := by
  rintro rfl
  exact h.1

theorem Beside.act {closed : Bool} {rest : Bytes} {s : Session} {whole : Machine}
    (h : Beside closed rest s whole) {action : Action} {actions : List Action}
    (hawaits : Awaits closed rest (productions (action :: actions))) :
    ∃ closed' rest', Advances closed' rest' whole (s.stepsOf action) (s.act action).2 ∧
      Awaits closed' rest' (productions actions) := by
  cases action with
  | step => exact ⟨closed, rest, h.step hawaits.rest_eq_nil, hawaits⟩
  | run fuel => exact ⟨closed, rest, h.act_run hawaits.rest_eq_nil fuel, hawaits⟩
  | produce p fuel =>
    have hcons : productions (.produce p fuel :: actions) = p :: productions actions := rfl
    rw [hcons] at hawaits
    cases closed with
    | true => exact absurd hawaits.2 (by simp)
    | false =>
      obtain ⟨pieces, rfl, hbefore⟩ := hawaits
      cases pieces with
      | nil =>
        obtain ⟨rfl, hnil⟩ : p = .close ∧ productions actions = [] := by
          simpa [List.cons_prefix_cons] using hbefore
        exact ⟨true, [], Beside.close fuel h, rfl, hnil⟩
      | cons piece pieces =>
        obtain ⟨rfl, hmore⟩ : p = .write piece ∧
            productions actions <+: pieces.map Production.write ++ [.close] := by
          simpa [List.cons_prefix_cons] using hbefore
        exact ⟨false, pieces.flatten, Beside.write fuel piece h, pieces, rfl, hmore⟩

/-- Any sequence of actions by which the rest is delivered. -/
theorem Beside.actAll {closed : Bool} {rest : Bytes} {s : Session} {whole : Machine}
    (h : Beside closed rest s whole) {actions : List Action}
    (hawaits : Awaits closed rest (productions actions)) :
    ∃ after closed' rest', Follows whole (s.completed actions) after ∧
      Beside closed' rest' (s.actAll actions).2 after := by
  induction actions generalizing closed rest s whole with
  | nil => exact ⟨whole, closed, rest, Follows.nil whole, h⟩
  | cons action actions ih =>
    obtain ⟨closed', rest', ⟨next, hnext, hbeside⟩, hlater⟩ := h.act hawaits
    obtain ⟨after, closed'', rest'', hafter, hlast⟩ := ih hbeside hlater
    exact ⟨after, closed'', rest'', hnext.append hafter, hlast⟩

theorem Beside.queue_of_suspended {closed : Bool} {rest : Bytes} {s : Session} {whole : Machine}
    (h : Beside closed rest s whole) (hbusy : s.isBusy = true) : s.queue? = some {} := by
  cases h with
  | idle hinput => simp [isBusy] at hbusy
  | waiting hopen hinput hstep => simp [queue?, hinput]

end Session

namespace Machine

theorem step_closed {m : Machine} {held : Bytes} (h : m.channels.input = .queue ⟨held, true⟩) :
    ∃ left, m.step.machine.channels.input = .queue ⟨left, true⟩ ∧
      (m.withInput (.bytes held)).step = m.step.withInput (.bytes left) := by
  have hbeside := step_beside h (fun _ => rfl)
  rw [List.append_nil] at hbeside
  generalize (m.withInput (.bytes held)).step = other, m.step = s at hbeside ⊢
  cases hbeside with
  | through _ hinput => exact ⟨_, hinput, by rw [List.append_nil]⟩
  | waits hopen => simp at hopen

/-- A closed queue and the bytes it holds give the same steps. -/
theorem blind_stepped_closed {m : Machine} {held : Bytes}
    (h : m.channels.input = .queue ⟨held, true⟩) (k : Nat) :
    ((m.withInput (.bytes held)).stepped k).step.blind = (m.stepped k).step.blind := by
  induction k generalizing m held with
  | zero =>
    obtain ⟨left, -, hstep⟩ := step_closed h
    rw [stepped, stepped, hstep, blind_withInput]
  | succ k ih =>
    obtain ⟨left, hleft, hstep⟩ := step_closed h
    rw [stepped, stepped, hstep, machine_withInput]
    exact ih hleft

end Machine

/-- The steps that come to their end do not depend on the schedule by which the bytes are delivered.
They are those of a machine with a closed queue of all bytes, and those of a machine that reads from
the bytes themselves; and a call has to wait only as long as the queue is empty and open. -/
theorem completed_of_delivers (m : Machine) {bytes : Bytes} {actions : List Session.Action}
    (h : Session.Delivers bytes actions) :
    let start : Session := { machine := m.withInput (.queue {}) }
    let steps := start.completed actions
    (steps.map Machine.Step.blind = (List.range steps.length).map fun k =>
        ((m.withInput (.queue ⟨bytes, true⟩)).stepped k).step.blind) ∧
      (steps.map Machine.Step.blind = (List.range steps.length).map fun k =>
        ((m.withInput (.bytes bytes)).stepped k).step.blind) ∧
      ((start.actAll actions).2.isBusy = true → (start.actAll actions).2.queue? = some {}) := by
  intro start steps
  have hstart : Session.Beside false bytes start
      ((m.withInput (.queue {})).withInput (.bytes ([] ++ bytes))) := Session.Beside.idle rfl
  rw [List.nil_append, Machine.withInput_withInput] at hstart
  obtain ⟨after, _, _, hfollows, hlast⟩ := hstart.actAll h
  have hbytes := hfollows.map_blind
  refine ⟨?_, hbytes, hlast.queue_of_suspended⟩
  rw [hbytes]
  refine List.map_congr_left fun k _ => ?_
  exact Machine.blind_stepped_closed (m := m.withInput (.queue ⟨bytes, true⟩)) rfl k

/-- A number is read from a line that arrives in four pieces, one of them empty and one ending
between CR and LF, while calls are made on the machine. -/
theorem completed_of_delivers_splitLine :
    let m : Machine :=
      { program := ⟨#[{ op := .getNumber }, { op := .putNumber }, { op := .getChar }], []⟩
        mem := #[0]
        channels := { output := .direct { canFlush := true } } }
    let actions : List Session.Action :=
      [.run 9, .produce (.write (utf8 "1")) 9, .produce (.write []) 9,
        .produce (.write (utf8 "2\r")) 9, .step, .produce (.write (utf8 "\n7")) 9,
        .produce .close 9]
    let start : Session := { machine := m.withInput (.queue {}) }
    Session.Delivers (utf8 "12\r\n7") actions ∧ (start.completed actions).length = 3 ∧
      (start.completed actions).map Machine.Step.blind = (List.range 3).map fun k =>
        ((m.withInput (.bytes (utf8 "12\r\n7"))).stepped k).step.blind := by
  intro m actions start
  have h : Session.Delivers (utf8 "12\r\n7") actions :=
    ⟨[utf8 "1", [], utf8 "2\r", utf8 "\n7"], by decide +kernel, by decide +kernel⟩
  have hlength : (start.completed actions).length = 3 := by decide +kernel
  have hsteps := (completed_of_delivers m h).2.1
  refine ⟨h, hlength, ?_⟩
  rw [← hlength]
  exact hsteps

end Sardine
