import Sardine.Proofs.Registers

/-! A run goes on where steps have stopped.
A run is one step after the other, up to the step with which the program ends. So it does not matter
how many of these steps were made one by one before. -/
namespace Sardine.Machine

/-- A step that comes to its end, given the queue each time that it has to wait. -/
inductive Completes : Step → List Queue → Step → Prop
  | through {s : Step} (h : s.isThrough = true) : Completes s [] s
  | waits {w : Wait} {m : Machine} {q : Queue} {qs : List Queue} {t : Step}
      (h : Completes (Machine.resume w (m.withInput (.queue q))) qs t) :
      Completes (.waiting w m) (q :: qs) t

/-- Steps, one by one, that all return without an error and leave the program running. -/
inductive Steps : Nat → Machine → List Queue → Machine → Prop
  | zero (m : Machine) : Steps 0 m [] m
  | succ {n : Nat} {m next after : Machine} {now later : List Queue}
      (hstep : Completes m.step now (.returned none next)) (hrunning : next.status = .running)
      (hrest : Steps n next later after) : Steps (n + 1) m (now ++ later) after

/-- A run that comes to its end, given the queue each time that it has to wait. -/
inductive Run.Returns : Run → List Queue → Step → Prop
  | through {s : Step} (h : s.isThrough = true) : Returns (.settled s) [] s
  | waits {w : Wait} {m : Machine} {q : Queue} {qs : List Queue} {t : Step} (fuel : Nat)
      (h : Returns (resumeRun fuel w (m.withInput (.queue q))) qs t) :
      Returns (.settled (.waiting w m)) (q :: qs) t

/-- A run from a machine comes to its end, for steps enough. -/
def RunsTo (m : Machine) (qs : List Queue) (t : Step) : Prop :=
  ∃ fuel, (run fuel m).Returns qs t

/-- A run told step by step. -/
inductive Path : Step → List Queue → Step → Prop
  | done {s : Step} (hthrough : s.isThrough = true) (hends : s.goesOn = false) : Path s [] s
  | waits {w : Wait} {m : Machine} {q : Queue} {qs : List Queue} {t : Step}
      (h : Path (Machine.resume w (m.withInput (.queue q))) qs t) :
      Path (.waiting w m) (q :: qs) t
  | goes {s : Step} {qs : List Queue} {t : Step} (hgoes : s.goesOn = true)
      (h : Path s.machine.step qs t) : Path s qs t

theorem eq_returned_of_goesOn {s : Step} (h : s.goesOn = true) :
    s = .returned none s.machine ∧ s.machine.status = .running := by
  cases s with
  | returned error m =>
    cases error with
    | none =>
      have hstatus : m.status ≠ .ended := by simpa [Step.goesOn] using h
      refine ⟨rfl, ?_⟩
      cases hm : m.status with
      | running => exact hm
      | ended => exact absurd hm hstatus
    | some e => simp [Step.goesOn] at h
  | _ => simp [Step.goesOn] at h

section Path

/-- A run settles on a step after which it does not go on, and the path from this step is that from
the step to which the run had come. -/
theorem path_of_follow {fuel : Nat} {s u : Step} (h : follow fuel s = .settled u) :
    u.goesOn = false ∧ ∀ {qs : List Queue} {t : Step}, Path u qs t → Path s qs t := by
  induction fuel using Nat.strongRecOn generalizing s with
  | _ fuel ih =>
    unfold follow at h
    cases hgoes : s.goesOn with
    | false =>
      obtain rfl : s = u := by simpa [hgoes] using h
      exact ⟨hgoes, fun hpath => hpath⟩
    | true =>
      rw [hgoes, if_pos rfl] at h
      cases fuel with
      | zero => simp at h
      | succ fuel =>
        rw [run_succ] at h
        obtain ⟨hends, hpath⟩ := ih fuel (Nat.lt_succ_self fuel) h
        exact ⟨hends, fun hrest => Path.goes hgoes (hpath hrest)⟩

theorem Run.Returns.exists_settled {r : Run} {qs : List Queue} {t : Step} (h : r.Returns qs t) :
    ∃ s, r = .settled s := by
  cases h with
  | through => exact ⟨_, rfl⟩
  | waits => exact ⟨_, rfl⟩

theorem Path.of_returns {r : Run} {qs : List Queue} {t : Step} (h : r.Returns qs t) {fuel : Nat}
    {s : Step} (hr : r = follow fuel s) : Path s qs t := by
  induction h generalizing fuel s with
  | through hthrough =>
    obtain ⟨hends, hpath⟩ := path_of_follow hr.symm
    exact hpath (Path.done hthrough hends)
  | waits more h ih =>
    obtain ⟨-, hpath⟩ := path_of_follow hr.symm
    exact hpath (Path.waits (ih (resumeRun_eq more _ _)))

theorem Path.returns {s : Step} {qs : List Queue} {t : Step} (h : Path s qs t) :
    ∃ fuel, (follow fuel s).Returns qs t := by
  induction h with
  | done hthrough hends =>
    refine ⟨0, ?_⟩
    rw [follow, hends]
    exact Run.Returns.through hthrough
  | waits h ih =>
    obtain ⟨fuel, hreturns⟩ := ih
    rw [← resumeRun_eq] at hreturns
    exact ⟨0, Run.Returns.waits fuel hreturns⟩
  | goes hgoes h ih =>
    obtain ⟨fuel, hreturns⟩ := ih
    refine ⟨fuel + 1, ?_⟩
    rwa [follow, if_pos hgoes, run_succ]

theorem runsTo_iff_path {m : Machine} {qs : List Queue} {t : Step} :
    m.RunsTo qs t ↔ Path m.step qs t := by
  constructor
  · rintro ⟨fuel, hreturns⟩
    cases fuel with
    | zero =>
      obtain ⟨s, hs⟩ := hreturns.exists_settled
      simp at hs
    | succ fuel => exact Path.of_returns hreturns (run_succ fuel m)
  · intro hpath
    obtain ⟨fuel, hreturns⟩ := hpath.returns
    rw [← run_succ] at hreturns
    exact ⟨fuel + 1, hreturns⟩

theorem Path.unique {s : Step} {qs : List Queue} {t t' : Step} (h : Path s qs t)
    (h' : Path s qs t') : t = t' := by
  induction h with
  | done hthrough hends =>
    cases h' with
    | done => rfl
    | goes hgoes => simp [hends] at hgoes
  | waits h ih =>
    cases h' with
    | waits h' => exact ih h'
    | goes hgoes => simp [Step.goesOn] at hgoes
  | goes hgoes h ih =>
    cases h' with
    | done _ hends => simp [hgoes] at hends
    | waits => simp [Step.goesOn] at hgoes
    | goes _ h' => exact ih h'

theorem path_through_iff {s : Step} {now : List Queue} {next : Machine}
    (h : Completes s now (.returned none next)) (hrunning : next.status = .running)
    {rest : List Queue} {t : Step} : Path s (now ++ rest) t ↔ Path next.step rest t := by
  generalize hback : Step.returned none next = u at h
  induction h with
  | through =>
    subst hback
    have hgoes : (Step.returned none next).goesOn = true := by simp [Step.goesOn, hrunning]
    constructor
    · intro hpath
      cases hpath with
      | done _ hends => simp [hgoes] at hends
      | goes _ h => exact h
    · exact fun hpath => Path.goes hgoes hpath
  | waits h ih =>
    rw [← ih hback]
    constructor
    · intro hpath
      cases hpath with
      | waits h => exact h
      | goes hgoes => simp [Step.goesOn] at hgoes
    · exact fun hpath => Path.waits hpath

theorem Completes.path {s t : Step} {qs : List Queue} (h : Completes s qs t)
    (hends : t.goesOn = false) : Path s qs t := by
  induction h with
  | through hthrough => exact Path.done hthrough hends
  | waits h ih => exact Path.waits (ih hends)

theorem Steps.path_iff {n : Nat} {m after : Machine} {arrivals : List Queue}
    (h : Steps n m arrivals after) {rest : List Queue} {t : Step} :
    Path m.step (arrivals ++ rest) t ↔ Path after.step rest t := by
  induction h with
  | zero => rfl
  | succ hstep hrunning _ ih => rw [List.append_assoc, path_through_iff hstep hrunning, ih]

end Path

/-- Steps that leave the program running, and then one after which a run does not go on. -/
inductive EndsBy (m : Machine) : List Queue → Step → Prop
  | intro {n : Nat} {before final : List Queue} {last : Machine} {t : Step}
      (hsteps : Steps n m before last) (hfinal : Completes last.step final t)
      (hends : t.goesOn = false) : EndsBy m (before ++ final) t

section EndsBy

variable {m : Machine} {qs : List Queue} {t : Step}

theorem EndsBy.path (h : m.EndsBy qs t) : Path m.step qs t := by
  obtain ⟨hsteps, hfinal, hends⟩ := h
  exact hsteps.path_iff.mpr (hfinal.path hends)

theorem EndsBy.once (hfinal : Completes m.step qs t) (hends : t.goesOn = false) : m.EndsBy qs t :=
  EndsBy.intro (Steps.zero m) hfinal hends

theorem EndsBy.cons {next : Machine} {now rest : List Queue}
    (hstep : Completes m.step now (.returned none next)) (hrunning : next.status = .running)
    (h : next.EndsBy rest t) : m.EndsBy (now ++ rest) t := by
  obtain ⟨hsteps, hfinal, hends⟩ := h
  rw [← List.append_assoc]
  exact EndsBy.intro (Steps.succ hstep hrunning hsteps) hfinal hends

theorem Path.first {s : Step} (h : Path s qs t) :
    (Completes s qs t ∧ t.goesOn = false) ∨ ∃ now rest next, qs = now ++ rest ∧
      Completes s now (.returned none next) ∧ next.status = .running ∧ next.EndsBy rest t := by
  induction h with
  | done hthrough hends => exact Or.inl ⟨Completes.through hthrough, hends⟩
  | @waits w m q qs t _ ih =>
    rcases ih with ⟨hcompletes, hends⟩ | ⟨now, rest, next, rfl, hcompletes, hrunning, hrest⟩
    · exact Or.inl ⟨Completes.waits hcompletes, hends⟩
    · exact Or.inr ⟨q :: now, rest, next, rfl, Completes.waits hcompletes, hrunning, hrest⟩
  | @goes s qs t hgoes _ ih =>
    -- This step is back already, and what follows starts with a step of its own.
    obtain ⟨hback, hrunning⟩ := eq_returned_of_goesOn hgoes
    have hcompletes : Completes s [] (.returned none s.machine) := by
      rw [← hback]
      exact Completes.through (by rw [hback]; rfl)
    refine Or.inr ⟨[], qs, s.machine, rfl, hcompletes, hrunning, ?_⟩
    rcases ih with ⟨hfinal, hends⟩ | ⟨now, rest, next, rfl, hstep, hnext, hrest⟩
    · exact EndsBy.once hfinal hends
    · exact EndsBy.cons hstep hnext hrest

/-- A run makes the steps that leave the program running, and then the one that ends it. -/
theorem runsTo_iff_endsBy : m.RunsTo qs t ↔ m.EndsBy qs t := by
  rw [runsTo_iff_path]
  constructor
  · intro hpath
    rcases hpath.first with ⟨hfinal, hends⟩ | ⟨now, rest, next, rfl, hstep, hrunning, hrest⟩
    · exact EndsBy.once hfinal hends
    · exact EndsBy.cons hstep hrunning hrest
  · exact EndsBy.path

end EndsBy

/-- A step that has come back with an error has ended the program, or found it ended. -/
def Step.EndedByError (s : Step) : Prop :=
  ∀ e m, s = .returned (some e) m → m.status = .ended

theorem endedByError_settle (x : Execution) : (settle x).EndedByError := by
  intro e m hback
  rcases settle_cases x with ⟨m', -, -, hsettle⟩ | ⟨w, m', -, hsettle⟩ | hended
  · simp [hsettle] at hback
  · simp [hsettle] at hback
  · rw [hback] at hended
    exact congrArg Machine.status hended

theorem endedByError_step (m : Machine) : m.step.EndedByError := by
  cases hstatus : m.status with
  | ended =>
    intro e after hback
    rw [step_of_ended hstatus] at hback
    obtain ⟨-, rfl⟩ := Step.returned.inj hback
    exact hstatus
  | running =>
    rw [step_of_running hstatus]
    exact endedByError_settle m.attempt

theorem Completes.endedByError {s t : Step} {qs : List Queue} (h : Completes s qs t)
    (hs : s.EndedByError) : t.EndedByError := by
  induction h with
  | through => exact hs
  | waits h ih => exact ih (endedByError_settle _)

theorem goesOn_eq_false_iff {s : Step} (h : s.EndedByError) {error : Option Error} {m : Machine}
    (hback : s = .returned error m) : s.goesOn = false ↔ m.status = .ended := by
  subst hback
  cases error with
  | none => simp [Step.goesOn]
  | some e => simp [Step.goesOn, h e m rfl]

end Sardine.Machine

namespace Sardine

open Machine

/-- After any number of steps that all return without an error and leave the program running, a run
comes to its end if and only if it does so from the start, and to the same end: the same error and
the same machine, with its registers, memory, count, input and output. There is at most one such
end. And a run returns what the step returns with which the program ends. -/
theorem run_resumes_steps {n : Nat} {m after : Machine} {arrivals : List Queue}
    (h : Steps n m arrivals after) :
    (∀ rest t, after.RunsTo rest t ↔ m.RunsTo (arrivals ++ rest) t) ∧
      (∀ qs t t', m.RunsTo qs t → m.RunsTo qs t' → t = t') ∧
      ∀ qs error ended, m.RunsTo qs (.returned error ended) ↔
        ∃ k before final last, qs = before ++ final ∧ Steps k m before last ∧
          Completes last.step final (.returned error ended) ∧ ended.status = .ended := by
  refine ⟨fun rest t => ?_, fun qs t t' ht ht' => ?_, fun qs error ended => ?_⟩
  · rw [runsTo_iff_path, runsTo_iff_path]
    exact h.path_iff.symm
  · exact Path.unique (runsTo_iff_path.mp ht) (runsTo_iff_path.mp ht')
  · rw [runsTo_iff_endsBy]
    constructor
    · rintro ⟨hsteps, hfinal, hends⟩
      have hsound := hfinal.endedByError (endedByError_step _)
      exact ⟨_, _, _, _, rfl, hsteps, hfinal, (goesOn_eq_false_iff hsound rfl).mp hends⟩
    · rintro ⟨k, before, final, last, rfl, hsteps, hfinal, hended⟩
      have hsound := hfinal.endedByError (endedByError_step _)
      exact EndsBy.intro hsteps hfinal ((goesOn_eq_false_iff hsound rfl).mpr hended)

/-- A number that arrives in two pieces is read by one step. The run after it writes the number and
ends, and so does a run from the start. -/
theorem run_resumes_steps_splitNumber :
    let m : Machine :=
      { program := ⟨#[{ op := .getNumber }, { op := .putNumber }], []⟩
        mem := #[0]
        channels := { input := .queue {}, output := .direct {} } }
    let arrivals : List Queue := [⟨utf8 "1", false⟩, ⟨utf8 "2\n", true⟩]
    ∃ after ended, Steps 1 m arrivals after ∧ after.RunsTo [] (.returned none ended) ∧
      m.RunsTo arrivals (.returned none ended) ∧
      ended.channels.output.calls = #[.write true (utf8 "12")] := by
  intro m arrivals
  let waiting : Machine :=
    { m with count := 1, channels := { m.channels with input := .queue {} } }
  let after : Machine :=
    { m with
      pc := 1
      mem := #[12]
      count := 1
      channels := { m.channels with input := .queue ⟨[], true⟩ } }
  have hstep : m.step = .waiting (.number []) waiting := by with_unfolding_all rfl
  have hgoes : Machine.resume (.number []) (waiting.withInput (.queue ⟨utf8 "1", false⟩)) =
      .waiting (.number (utf8 "1")) waiting := by
    with_unfolding_all rfl
  have hback : Machine.resume (.number (utf8 "1"))
      (waiting.withInput (.queue ⟨utf8 "2\n", true⟩)) = .returned none after := by
    with_unfolding_all rfl
  have hcompletes : Completes m.step arrivals (.returned none after) := by
    rw [hstep]
    refine Completes.waits ?_
    rw [hgoes]
    refine Completes.waits ?_
    rw [hback]
    exact Completes.through rfl
  have hsteps : Steps 1 m arrivals after := Steps.succ hcompletes rfl (Steps.zero after)
  have hlast : run 1 after = .settled (.returned none after.step.machine) := rfl
  have hruns : after.RunsTo [] (.returned none after.step.machine) := by
    refine ⟨1, ?_⟩
    rw [hlast]
    exact Run.Returns.through rfl
  obtain ⟨hsame, -⟩ := run_resumes_steps hsteps
  exact ⟨after, after.step.machine, hsteps, hruns, (hsame [] _).mp hruns, by decide +kernel⟩

end Sardine
