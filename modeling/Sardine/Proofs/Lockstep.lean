import Sardine.Proofs.Moments
import Mathlib.Data.List.Forall2

/-! Two machines side by side.
If each phase of the one comes out like the phase of the other that corresponds to it, then all
calls come back alike, whatever is called and whatever is done to the queues. -/
namespace Sardine

namespace Machine

def Step.map (f : Machine → Machine) : Step → Step
  | returned error m => returned error (f m)
  | waiting w m => waiting w (f m)
  | crashed text m => crashed text (f m)

variable {f : Machine → Machine}

theorem note_map {m : Machine} {ins : Instruction} (htrace : (f m).trace = m.trace)
    (hcount : (f m).count = m.count) (hline : (f m).traceLine ins = m.traceLine ins)
    (hkeep : ∀ count trace, f { m with count, trace } = { f m with count, trace }) :
    (f m).note ins = f (m.note ins) := by
  have hsame : ((f m).note ins).trace = (m.note ins).trace := by
    unfold note
    rw [htrace]
    split
    · rw [hline]
      split <;> rfl
    · rfl
  have hkept := hkeep (m.count + 1) (m.note ins).trace
  rw [← note_eq] at hkept
  rw [hkept, note_eq ins (f m), hsame, hcount]

theorem settle_map {x : Execution} (hpast : (f x.machine).isPastEnd = x.machine.isPastEnd)
    (hfinish : ∀ error, (f x.machine).finish error = (x.machine.finish error).map f) :
    settle (x.map f) = (settle x).map f := by
  cases x with
  | next m =>
    have hpast : (f m).isPastEnd = m.isPastEnd := hpast
    simp only [Execution.map, settle, hpast]
    split
    · exact hfinish none
    · rfl
  | halt m => exact hfinish none
  | failed e m => exact hfinish (some e)
  | waiting w m => rfl

end Machine

namespace Phase

def map (f : Machine → Machine) : Phase → Phase
  | ready m => ready (f m)
  | waiting w m => waiting w (f m)

@[simp] theorem machine_map (f : Machine → Machine) (p : Phase) :
    (p.map f).machine = f p.machine := by
  cases p <;> rfl

theorem ofStep_map (f : Machine → Machine) (s : Machine.Step) :
    ofStep (s.map f) = (ofStep s).map f := by
  cases s <;> rfl

/-- A phase is like that of another machine, if what it executes is, and is settled alike. -/
theorem step_map {f : Machine → Machine} {p : Phase}
    (hstatus : (f p.machine).status = p.machine.status)
    (hexecution : (p.map f).execution = p.execution.map f)
    (hsettle : Machine.settle (p.execution.map f) = (Machine.settle p.execution).map f) :
    (p.map f).step = p.step.map f := by
  rw [← hexecution] at hsettle
  cases p with
  | waiting w m => exact hsettle
  | ready m =>
    have hstatus : (f m).status = m.status := hstatus
    cases hm : m.status with
    | running =>
      rw [hm] at hstatus
      rw [map, step, step, Machine.step_of_running hm, Machine.step_of_running hstatus]
      exact hsettle
    | ended =>
      rw [hm] at hstatus
      rw [map, step, step, Machine.step_of_ended hm, Machine.step_of_ended hstatus]
      rfl

/-- Two steps that come out alike and leave phases that correspond. -/
inductive Alike (R : Phase → Phase → Prop) : Machine.Step → Machine.Step → Prop
  | returned (error : Option Error) {m other : Machine} (h : R (.ready m) (.ready other)) :
      Alike R (.returned error m) (.returned error other)
  | waiting {w : Wait} {m other : Machine} (h : R (.waiting w m) (.waiting w other)) :
      Alike R (.waiting w m) (.waiting w other)
  | crashed (text : Bytes) {m other : Machine} (h : R (.ready m) (.ready other)) :
      Alike R (.crashed text m) (.crashed text other)

theorem alike_map {R : Phase → Phase → Prop} {f : Machine → Machine} {s : Machine.Step}
    (h : R (ofStep s) ((ofStep s).map f)) : Alike R s (s.map f) := by
  cases s with
  | returned error m => exact Alike.returned error h
  | waiting w m => exact Alike.waiting h
  | crashed text m => exact Alike.crashed text h

theorem alike_of_map_eq {R : Phase → Phase → Prop} {f g : Machine → Machine} {s t : Machine.Step}
    (h : s.map f = t.map g) (hphases : R (ofStep s) (ofStep t)) : Alike R s t := by
  cases s with
  | returned error m =>
    cases t with
    | returned other m' =>
      obtain rfl := (Machine.Step.returned.inj h).1
      exact Alike.returned error hphases
    | _ => simp [Machine.Step.map] at h
  | waiting w m =>
    cases t with
    | waiting other m' =>
      obtain rfl := (Machine.Step.waiting.inj h).1
      exact Alike.waiting hphases
    | _ => simp [Machine.Step.map] at h
  | crashed text m =>
    cases t with
    | crashed other m' =>
      obtain rfl := (Machine.Step.crashed.inj h).1
      exact Alike.crashed text hphases
    | _ => simp [Machine.Step.map] at h

/-- What has to be known of two phases that correspond. -/
structure Lockstep (R : Phase → Phase → Prop) : Prop where
  step : ∀ {p other : Phase}, R p other → Alike R p.step other.step
  status : ∀ {m other : Machine}, R (.ready m) (.ready other) → m.status = other.status
  queue : ∀ {p other : Phase}, R p other → ∀ q,
    p.machine.channels.input = .queue q ↔ other.machine.channels.input = .queue q
  supply : ∀ {p other : Phase} {held : Queue}, R p other →
    p.machine.channels.input = .queue held → ∀ q,
      R (p.withInput (.queue q)) (other.withInput (.queue q))

end Phase

namespace Session

open Machine

theorem queue?_of_input {s : Session} {q : Queue} (h : s.machine.channels.input = .queue q) :
    s.queue? = some q := by
  rw [queue?, h]

/-- Two sessions in phases that correspond, the same call being suspended in both. -/
structure Paired (R : Phase → Phase → Prop) (s other : Session) : Prop where
  phase : R s.phase other.phase
  suspended : s.suspended = other.suspended

/-- Two calls that come back alike after phases that correspond. -/
structure Together (R : Phase → Phase → Prop) {α : Type} (phases others : List Phase)
    (back other : α × Session) : Prop where
  reply : back.1 = other.1
  phases : List.Forall₂ R phases others
  sessions : Paired R back.2 other.2

section Together

variable {R : Phase → Phase → Prop}

theorem Together.ofStep (activity : Activity) {p q : Phase} (hphases : R p q) {s t : Step}
    (h : Phase.Alike R s t) :
    Together R [p] [q] (Session.ofStep activity s) (Session.ofStep activity t) := by
  have honce : List.Forall₂ R [p] [q] := List.Forall₂.cons hphases List.Forall₂.nil
  cases h with
  | returned error hm => exact ⟨rfl, honce, hm, rfl⟩
  | waiting hm => exact ⟨rfl, honce, hm, rfl⟩
  | crashed text hm => exact ⟨rfl, honce, hm, rfl⟩

theorem Together.none {s t : Session} (h : Paired R s t) :
    Together R [] [] ((none : Option Reply), s) (none, t) :=
  ⟨rfl, List.Forall₂.nil, h⟩

theorem Together.some {phases others : List Phase} {back other : Reply × Session}
    (h : Together R phases others back other) :
    Together R phases others (some back.1, back.2) (some other.1, other.2) :=
  ⟨congrArg Option.some h.reply, h.phases, h.sessions⟩

end Together

end Session

namespace Phase.Lockstep

open Machine Session

variable {R : Phase → Phase → Prop} (h : Lockstep R)
include h

theorem goesOn {s t : Step} (hsteps : Alike R s t) : s.goesOn = t.goesOn := by
  cases hsteps with
  | returned error hm => cases error <;> simp [Step.goesOn, h.status hm]
  | _ => rfl

/-- A run that has come to a step goes on as the other one does, if shorter runs do. -/
theorem follow {fuel : Nat}
    (hrun : ∀ {m other : Machine}, R (.ready m) (.ready other) →
      Together R (runPhases fuel m) (runPhases fuel other) (ofRun (Machine.run fuel m))
        (ofRun (Machine.run fuel other)))
    {p other : Phase} (hphases : R p other) :
    Together R (followPhases fuel p) (followPhases fuel other) (ofRun (Machine.follow fuel p.step))
      (ofRun (Machine.follow fuel other.step)) := by
  have halike := h.step hphases
  have hgoes := h.goesOn halike
  unfold followPhases Machine.follow
  rw [← hgoes]
  split
  · rename_i hon
    generalize p.step = s at halike hon
    generalize other.step = t at halike
    cases halike with
    | returned error hm =>
      obtain ⟨hreply, hmore, hsessions⟩ := hrun hm
      exact ⟨hreply, List.Forall₂.cons hphases hmore, hsessions⟩
    | _ => simp [Step.goesOn] at hon
  · exact Together.ofStep .run hphases halike

theorem run (fuel : Nat) {m other : Machine} (hm : R (.ready m) (.ready other)) :
    Together R (runPhases fuel m) (runPhases fuel other) (ofRun (Machine.run fuel m))
      (ofRun (Machine.run fuel other)) := by
  induction fuel generalizing m other with
  | zero => exact ⟨rfl, List.Forall₂.nil, hm, rfl⟩
  | succ fuel ih =>
    rw [run_succ, run_succ]
    exact h.follow ih hm

theorem resume (fuel : Nat) {s other : Session} (hs : Paired R s other) :
    Together R (s.resumePhases fuel) (other.resumePhases fuel) (s.resume fuel)
      (other.resume fuel) := by
  obtain ⟨m, suspended⟩ := s
  obtain ⟨m', suspended'⟩ := other
  obtain ⟨hphase, rfl⟩ := hs
  match suspended with
  | none => exact Together.none ⟨hphase, rfl⟩
  | some (.step, w) => exact (Together.ofStep .step hphase (h.step hphase)).some
  | some (.run, w) =>
    have hfollow := h.follow (h.run fuel) hphase
    simp only [Session.resume, resumeRun_eq]
    exact hfollow.some

theorem queue? {s other : Session} (hs : Paired R s other) : s.queue? = other.queue? := by
  have hqueue := h.queue hs.phase
  simp only [machine_phase] at hqueue
  cases hown : s.queue? with
  | some q => exact (queue?_of_input ((hqueue q).mp (input_of_queue? hown))).symm
  | none =>
    cases hother : other.queue? with
    | none => rfl
    | some q => exact hown.symm.trans (queue?_of_input ((hqueue q).mpr (input_of_queue? hother)))

theorem withQueue {s other : Session} (hs : Paired R s other) {held : Queue}
    (hqueue : s.queue? = some held) (q : Queue) :
    Paired R (s.withQueue q) (other.withQueue q) := by
  have hinput : s.phase.machine.channels.input = .queue held := by
    rw [machine_phase]
    exact input_of_queue? hqueue
  refine ⟨?_, hs.suspended⟩
  rw [phase_withQueue, phase_withQueue]
  exact h.supply hs.phase hinput q

theorem act {s other : Session} (hs : Paired R s other) (action : Action) :
    Together R (s.phasesOf action) (other.phasesOf action) (s.act action) (other.act action) := by
  cases action with
  | step =>
    obtain ⟨m, suspended⟩ := s
    obtain ⟨m', suspended'⟩ := other
    obtain ⟨hphase, rfl⟩ := hs
    match suspended with
    | none => exact (Together.ofStep .step hphase (h.step hphase)).some
    | some held => exact Together.none ⟨hphase, rfl⟩
  | run fuel =>
    obtain ⟨m, suspended⟩ := s
    obtain ⟨m', suspended'⟩ := other
    obtain ⟨hphase, rfl⟩ := hs
    match suspended with
    | none => exact (h.run fuel hphase).some
    | some held => exact Together.none ⟨hphase, rfl⟩
  | produce p fuel =>
    rw [Session.act, Session.act, produce_eq, produce_eq, phasesOf, phasesOf, ← h.queue? hs]
    cases hfresh : s.queue?.bind p.refreshed? with
    | none => exact Together.none hs
    | some fresh =>
      obtain ⟨q, hqueue, -⟩ := Option.bind_eq_some_iff.mp hfresh
      exact h.resume fuel (h.withQueue hs hqueue fresh)

/-- All calls come back alike. -/
theorem actAll {s other : Session} (hs : Paired R s other) (actions : List Action) :
    Together R (s.history actions) (other.history actions) (s.actAll actions)
      (other.actAll actions) := by
  induction actions generalizing s other with
  | nil => exact ⟨rfl, List.Forall₂.nil, hs⟩
  | cons action actions ih =>
    obtain ⟨hreply, hphases, hsessions⟩ := h.act hs action
    obtain ⟨hreplies, hmore, hlast⟩ := ih hsessions
    refine ⟨?_, List.rel_append hphases hmore, hlast⟩
    rw [Session.actAll, Session.actAll, hreply, hreplies]

end Phase.Lockstep

end Sardine
