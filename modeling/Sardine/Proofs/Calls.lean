import Sardine.Machine.Session

/-! Sequences of calls on a machine, and of what is done to its queue between them.
What a single step and a single resumption keep, every sequence keeps. -/
namespace Sardine

namespace Machine

def Step.machine : Step → Machine
  | returned _ m => m
  | waiting _ m => m
  | crashed _ m => m

def withInput (input : Input) (m : Machine) : Machine :=
  { m with channels := { m.channels with input } }

end Machine

namespace Session

/-- Something done to the queue of a machine. -/
inductive Production
  | write (bytes : Bytes)
  | close
  | feed (reader : Reader)
  deriving DecidableEq, Repr

/-- A call on the machine, or a production. The number bounds the steps of a run that is called or
goes on. -/
inductive Action
  | step
  | run (fuel : Nat)
  | produce (p : Production) (fuel : Nat)
  deriving DecidableEq, Repr

/-- How a suspended call comes back after a production, if it does. -/
def produce (fuel : Nat) (s : Session) : Production → Option Reply × Session
  | .write bytes => (s.write fuel bytes).elim (none, s) Prod.snd
  | .close => (s.close fuel).elim (none, s) Prod.snd
  | .feed reader => (s.feed fuel reader).elim (none, s) Prod.snd

def act (s : Session) : Action → Option Reply × Session
  | .step => s.step
  | .run fuel => s.run fuel
  | .produce p fuel => s.produce fuel p

def actAll (s : Session) : List Action → List Reply × Session
  | [] => ([], s)
  | action :: actions =>
    ((s.act action).1.toList ++ ((s.act action).2.actAll actions).1,
      ((s.act action).2.actAll actions).2)

/-- The queue after a production that a suspended call can notice. -/
def Production.refreshed? : Production → Queue → Option Queue
  | .write bytes, q => if bytes.isEmpty then none else (q.write bytes).toOption
  | .close, q => q.close.toOption
  | .feed reader, q => some (q.feed reader).2

/-- A production does nothing, or lets the suspended call go on with the new queue. -/
theorem produce_eq (fuel : Nat) (s : Session) (p : Production) :
    s.produce fuel p =
      (s.queue?.bind p.refreshed?).elim (none, s) fun q => resume fuel (s.withQueue q) := by
  cases hqueue : s.queue? with
  | none => cases p <;> simp [produce, write, close, feed, hqueue]
  | some q =>
    cases p with
    | write bytes =>
      have hwrite : q.write bytes = .error ⟨.inputClosed, []⟩ ∨
          q.write bytes = .ok { q with held := q.held ++ bytes } := by
        unfold Queue.write
        split
        · exact Or.inl rfl
        · exact Or.inr rfl
      by_cases hempty : bytes.isEmpty
      · rcases hwrite with h | h <;>
          simp [produce, write, hqueue, h, hempty, Production.refreshed?]
      · rcases hwrite with h | h <;>
          simp [produce, write, hqueue, h, hempty, Production.refreshed?, Except.toOption]
    | close =>
      cases h : q.close <;>
        simp [produce, close, hqueue, h, Production.refreshed?, Except.toOption]
    | feed reader => simp [produce, feed, hqueue, Production.refreshed?]

/-- What calls keep: something of a machine at rest, something of a machine whose call is suspended,
and something of every reply. -/
structure Contract where
  idle : Machine → Prop
  held : Wait → Machine → Prop
  reply : Reply → Prop

namespace Contract

variable (c : Contract)

def AfterStep : Machine.Step → Prop
  | .returned error m => c.reply (.returned error) ∧ c.idle m
  | .waiting w m => c.reply .blocked ∧ c.held w m
  | .crashed text m => c.reply (.crashed text) ∧ c.idle m

def AfterRun : Machine.Run → Prop
  | .settled s => c.AfterStep s
  | .unfinished m => c.idle m

def Holds (s : Session) : Prop :=
  match s.suspended with
  | none => c.idle s.machine
  | some (_, w) => c.held w s.machine

/-- What has to be known of a step and of a resumption. -/
structure Kept : Prop where
  unfinished : c.reply .unfinished
  step : ∀ {m}, c.idle m → c.AfterStep m.step
  resume : ∀ {w m}, c.held w m → c.AfterStep (Machine.resume w m)
  idle_queue : ∀ {m} q, c.idle m → c.idle (m.withInput (.queue q))
  held_queue : ∀ {w m} q, c.held w m → c.held w (m.withInput (.queue q))

variable {c}

theorem ofStep (activity : Activity) {s : Machine.Step} (h : c.AfterStep s) :
    c.reply (Session.ofStep activity s).1 ∧ c.Holds (Session.ofStep activity s).2 := by
  cases s <;> exact h

namespace Kept

variable (h : c.Kept)
include h

theorem run {m : Machine} (hm : c.idle m) (fuel : Nat) : c.AfterRun (Machine.run fuel m) := by
  induction fuel generalizing m with
  | zero => exact hm
  | succ fuel ih =>
    have hstep := h.step hm
    unfold Machine.run
    split
    · rename_i after heq
      rw [heq] at hstep
      split
      · exact hstep
      · exact ih hstep.2
    · exact hstep

theorem resumeRun {w : Wait} {m : Machine} (hm : c.held w m) (fuel : Nat) :
    c.AfterRun (Machine.resumeRun fuel w m) := by
  have hstep := h.resume hm
  unfold Machine.resumeRun
  split
  · rename_i after heq
    rw [heq] at hstep
    split
    · exact hstep
    · exact h.run hstep.2 fuel
  · exact hstep

theorem ofRun {r : Machine.Run} (hr : c.AfterRun r) :
    c.reply (Session.ofRun r).1 ∧ c.Holds (Session.ofRun r).2 := by
  cases r with
  | settled s => exact ofStep .run hr
  | unfinished m => exact ⟨h.unfinished, hr⟩

theorem act_resume {s : Session} (hs : c.Holds s) (fuel : Nat) :
    (∀ reply ∈ (s.resume fuel).1, c.reply reply) ∧ c.Holds (s.resume fuel).2 := by
  obtain ⟨m, suspended⟩ := s
  match suspended with
  | none => exact ⟨by simp [Session.resume], hs⟩
  | some (.step, w) =>
    have hstep := ofStep .step (h.resume hs)
    simpa [Session.resume] using hstep
  | some (.run, w) =>
    have hrun := h.ofRun (h.resumeRun hs fuel)
    simpa [Session.resume] using hrun

theorem withQueue {s : Session} (hs : c.Holds s) (q : Queue) : c.Holds (s.withQueue q) := by
  obtain ⟨m, suspended⟩ := s
  match suspended with
  | none => exact h.idle_queue q hs
  | some (_, w) => exact h.held_queue q hs

theorem act {s : Session} (hs : c.Holds s) (action : Action) :
    (∀ reply ∈ (s.act action).1, c.reply reply) ∧ c.Holds (s.act action).2 := by
  cases action with
  | step =>
    obtain ⟨m, suspended⟩ := s
    cases suspended with
    | none =>
      have hstep := ofStep .step (h.step hs)
      simpa [Session.act, Session.step] using hstep
    | some held => exact ⟨by simp [Session.act, Session.step], hs⟩
  | run fuel =>
    obtain ⟨m, suspended⟩ := s
    cases suspended with
    | none =>
      have hrun := h.ofRun (h.run hs fuel)
      simpa [Session.act, Session.run] using hrun
    | some held => exact ⟨by simp [Session.act, Session.run], hs⟩
  | produce p fuel =>
    rw [Session.act, produce_eq]
    cases s.queue?.bind p.refreshed? with
    | none => exact ⟨by simp, hs⟩
    | some q => exact h.act_resume (h.withQueue hs q) fuel

/-- What every sequence of actions keeps. -/
theorem actAll {s : Session} (hs : c.Holds s) (actions : List Action) :
    (∀ reply ∈ (s.actAll actions).1, c.reply reply) ∧ c.Holds (s.actAll actions).2 := by
  induction actions generalizing s with
  | nil => exact ⟨by simp [Session.actAll], hs⟩
  | cons action actions ih =>
    obtain ⟨hreply, hafter⟩ := h.act hs action
    obtain ⟨hreplies, hlast⟩ := ih hafter
    refine ⟨fun reply hmem => ?_, hlast⟩
    rcases List.mem_append.mp hmem with hmem | hmem
    · exact hreply reply (by simpa using hmem)
    · exact hreplies reply hmem

end Kept

end Contract

end Session

end Sardine
