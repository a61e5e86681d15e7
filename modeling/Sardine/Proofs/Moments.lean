import Sardine.Proofs.Attempts
import Sardine.Proofs.History

/-! The calls that instructions make on their channels, moment by moment.
A reading instruction flushes the output and asks the input for a byte, and does both again for each
further byte. A writing instruction writes once. No other instruction makes a call. -/
namespace Sardine

inductive Use
  | ask
  | flush
  | write (bytes : Bytes)
  deriving DecidableEq, Repr

/-- A call, with the channels as they are when it is made. -/
structure Moment where
  use : Use
  channels : Channels

namespace Moment

def after (moment : Moment) : Channels :=
  match moment.use with
  | .ask => { moment.channels with input := moment.channels.input.next.2 }
  | .flush => { moment.channels with output := moment.channels.output.flush.2 }
  | .write bytes => { moment.channels with output := (moment.channels.output.write bytes).2 }

/-- The call is made on a channel that is there, and does not come back. -/
def Crashes (moment : Moment) (text : Bytes) : Prop :=
  match moment.use with
  | .ask => moment.channels.input.next.1 = .crashed text
  | .flush => moment.channels.output.flush.1 = .crashed text
  | .write bytes =>
    moment.channels.output.isAbsent = false ∧
      (moment.channels.output.write bytes).1 = .crashed text

/-- The calls lead from one state of the channels to another; there are no calls but these. -/
inductive Account : Channels → List Moment → Channels → Prop
  | nil (channels : Channels) : Account channels [] channels
  | cons (use : Use) {channels last : Channels} {moments : List Moment}
      (h : Account (after ⟨use, channels⟩) moments last) :
      Account channels (⟨use, channels⟩ :: moments) last

theorem Account.once (use : Use) (channels : Channels) :
    Account channels [⟨use, channels⟩] (after ⟨use, channels⟩) :=
  Account.cons use (Account.nil _)

end Moment

namespace Channels

def receiveMoments (w : Wait) (channels : Channels) : List Moment :=
  ⟨.ask, channels⟩ ::
    match _next : channels.input.next with
    | (.byte b, input) =>
      match w.accept b with
      | .inl _ => []
      | .inr more =>
        ⟨.flush, { channels with input }⟩ ::
          match channels.output.flush with
          | (.ok (), output) => receiveMoments more { input, output }
          | _ => []
    | _ => []
termination_by channels.input.size
decreasing_by exact Input.size_next_lt _next

def fetchMoments (w : Wait) (channels : Channels) : List Moment :=
  match channels.input with
  | .absent => []
  | _ =>
    ⟨.flush, channels⟩ ::
      match channels.output.flush with
      | (.ok (), output) => receiveMoments w { channels with output }
      | _ => []

def emitMoments (bytes : Bytes) (channels : Channels) : List Moment :=
  if channels.output.isAbsent then [] else [⟨.write bytes, channels⟩]

/-- What the answer of the input makes of a reading instruction, if no further byte is needed. -/
def answer? (w : Wait) : Delivery → Option Fetched
  | .pending => some (.waiting w)
  | .crashed text => some (.failed ⟨.crash text, []⟩)
  | .stopped .endOfData => some (ofResult w.atEnd)
  | .stopped stop => some (.failed (stop.toError.wrap inputNote))
  | .byte b =>
    match w.accept b with
    | .inl result => some (ofResult result)
    | .inr _ => none

/-- How a reading goes: by turns the output is flushed, and the input is asked for a byte. The flag
says whether the flush has been made. -/
inductive Reads : Bool → Wait → Channels → List Moment → Fetched × Channels → Prop
  | unflushed {w : Wait} {channels : Channels} {e : Error}
      (h : channels.output.flush.1 = .failed e) :
      Reads false w channels [⟨.flush, channels⟩]
        (.failed (e.wrap flushNote), Moment.after ⟨.flush, channels⟩)
  | flushCrashes {w : Wait} {channels : Channels} {text : Bytes}
      (h : channels.output.flush.1 = .crashed text) :
      Reads false w channels [⟨.flush, channels⟩]
        (.failed ⟨.crash text, []⟩, Moment.after ⟨.flush, channels⟩)
  | flushed {w : Wait} {channels : Channels} {moments : List Moment} {result : Fetched × Channels}
      (h : channels.output.flush.1 = .ok ())
      (hrest : Reads true w (Moment.after ⟨.flush, channels⟩) moments result) :
      Reads false w channels (⟨.flush, channels⟩ :: moments) result
  | answered {w : Wait} {channels : Channels} {fetched : Fetched}
      (h : answer? w channels.input.next.1 = some fetched) :
      Reads true w channels [⟨.ask, channels⟩] (fetched, Moment.after ⟨.ask, channels⟩)
  | further {w more : Wait} {channels : Channels} {b : UInt8} {moments : List Moment}
      {result : Fetched × Channels} (h : channels.input.next.1 = .byte b)
      (hmore : w.accept b = .inr more)
      (hrest : Reads false more (Moment.after ⟨.ask, channels⟩) moments result) :
      Reads true w channels (⟨.ask, channels⟩ :: moments) result

theorem receiveMoments_of_byte {w : Wait} {channels : Channels} {b : UInt8} {input : Input}
    (h : channels.input.next = (.byte b, input)) :
    receiveMoments w channels = ⟨.ask, channels⟩ ::
      match w.accept b with
      | .inl _ => []
      | .inr more =>
        ⟨.flush, { channels with input }⟩ ::
          match channels.output.flush with
          | (.ok (), output) => receiveMoments more { input, output }
          | _ => [] := by
  rw [receiveMoments]
  split
  · rename_i heq
    obtain ⟨rfl, rfl⟩ : _ ∧ _ := by simpa [h] using heq
    rfl
  · rename_i hnot
    exact absurd h (hnot b input)

theorem receiveMoments_of_not_byte {w : Wait} {channels : Channels}
    (h : ∀ b, channels.input.next.1 ≠ .byte b) :
    receiveMoments w channels = [⟨.ask, channels⟩] := by
  rw [receiveMoments]
  split
  · rename_i heq
    exact absurd (congrArg Prod.fst heq) (h _)
  · rfl

theorem after_ask {channels : Channels} {delivery : Delivery} {input : Input}
    (h : channels.input.next = (delivery, input)) :
    Moment.after ⟨.ask, channels⟩ = { channels with input } := by
  simp [Moment.after, h]

theorem after_flush {channels : Channels} {result : Outcome Unit} {output : Output}
    (h : channels.output.flush = (result, output)) :
    Moment.after ⟨.flush, channels⟩ = { channels with output } := by
  simp [Moment.after, h]

theorem reads_receive (w : Wait) (channels : Channels) :
    Reads true w channels (receiveMoments w channels) (receive w channels) := by
  -- An answer after which no byte is needed.
  have hlast : ∀ {w : Wait} {channels : Channels} {delivery : Delivery} {input : Input}
      {fetched : Fetched}, channels.input.next = (delivery, input) →
      (∀ b, delivery ≠ .byte b) → answer? w delivery = some fetched →
      Reads true w channels (receiveMoments w channels) (fetched, { channels with input }) := by
    intro w channels delivery input fetched hnext hnot hanswer
    rw [receiveMoments_of_not_byte (by rw [hnext]; exact hnot), ← after_ask hnext]
    exact Reads.answered (by rw [hnext]; exact hanswer)
  fun_induction Channels.receive w channels with
  | case1 w channels input hnext => exact hlast hnext (by simp) rfl
  | case2 w channels text input hnext => exact hlast hnext (by simp) rfl
  | case3 w channels input hnext => exact hlast hnext (by simp) rfl
  | case4 w channels stop input hstop hnext =>
    refine hlast hnext (by simp) ?_
    cases stop with
    | endOfData => exact absurd rfl hstop
    | _ => rfl
  | case5 w channels b input hnext result haccept =>
    rw [receiveMoments_of_byte hnext, haccept, ← after_ask hnext]
    exact Reads.answered (by simp [hnext, answer?, haccept])
  | case6 w channels b input hnext more haccept output hflush ih =>
    have hflush' : ({ channels with input } : Channels).output.flush = (.ok (), output) := hflush
    rw [receiveMoments_of_byte hnext, haccept, hflush]
    refine Reads.further (by rw [hnext]) haccept ?_
    rw [after_ask hnext]
    refine Reads.flushed (by rw [hflush']) ?_
    rw [after_flush hflush']
    exact ih
  | case7 w channels b input hnext more haccept e output hflush =>
    have hflush' : ({ channels with input } : Channels).output.flush = (.failed e, output) := hflush
    rw [receiveMoments_of_byte hnext, haccept, hflush]
    refine Reads.further (by rw [hnext]) haccept ?_
    have hreads := Reads.unflushed (w := more) (congrArg Prod.fst hflush')
    rw [after_flush hflush'] at hreads
    rw [after_ask hnext]
    exact hreads
  | case8 w channels b input hnext more haccept text output hflush =>
    have hflush' : ({ channels with input } : Channels).output.flush = (.crashed text, output) :=
      hflush
    rw [receiveMoments_of_byte hnext, haccept, hflush]
    refine Reads.further (by rw [hnext]) haccept ?_
    have hreads := Reads.flushCrashes (w := more) (congrArg Prod.fst hflush')
    rw [after_flush hflush'] at hreads
    rw [after_ask hnext]
    exact hreads

theorem reads_fetch (w : Wait) {channels : Channels} (h : channels.input ≠ .absent) :
    Reads false w channels (fetchMoments w channels) (fetch w channels) := by
  obtain ⟨input, output⟩ := channels
  have hthere : input ≠ .absent := h
  cases hflush : output.flush with
  | mk result last =>
    have hlast : Moment.after ⟨.flush, ⟨input, output⟩⟩ = ⟨input, last⟩ := after_flush hflush
    have hresult := congrArg Prod.fst hflush
    have hstops : result ≠ .ok () →
        fetchMoments w ⟨input, output⟩ = [⟨.flush, ⟨input, output⟩⟩] := by
      intro hnot
      cases input <;> cases result <;> simp_all [fetchMoments]
    cases result with
    | ok =>
      have hmoments : fetchMoments w ⟨input, output⟩ =
          ⟨.flush, ⟨input, output⟩⟩ :: receiveMoments w ⟨input, last⟩ := by
        cases input <;> simp_all [fetchMoments]
      have hfetch : fetch w ⟨input, output⟩ = receive w ⟨input, last⟩ := by
        cases input <;> simp_all [fetch]
      rw [hmoments, hfetch]
      refine Reads.flushed hresult ?_
      rw [hlast]
      exact reads_receive w ⟨input, last⟩
    | failed e =>
      have hfetch : fetch w ⟨input, output⟩ =
          (.failed (e.wrap flushNote), Moment.after ⟨.flush, ⟨input, output⟩⟩) := by
        cases input <;> simp_all [fetch]
      rw [hstops (by simp), hfetch]
      exact Reads.unflushed hresult
    | crashed text =>
      have hfetch : fetch w ⟨input, output⟩ =
          (.failed ⟨.crash text, []⟩, Moment.after ⟨.flush, ⟨input, output⟩⟩) := by
        cases input <;> simp_all [fetch]
      rw [hstops (by simp), hfetch]
      exact Reads.flushCrashes hresult

/-- A reading makes its calls and no others. -/
theorem Reads.account {flushed : Bool} {w : Wait} {channels : Channels} {moments : List Moment}
    {result : Fetched × Channels} (h : Reads flushed w channels moments result) :
    Moment.Account channels moments result.2 := by
  induction h with
  | unflushed => exact Moment.Account.once _ _
  | flushCrashes => exact Moment.Account.once _ _
  | flushed _ _ ih => exact Moment.Account.cons _ ih
  | answered => exact Moment.Account.once _ _
  | further _ _ _ ih => exact Moment.Account.cons _ ih

theorem next_of_answer_crash {w : Wait} {delivery : Delivery} {text : Bytes}
    (h : answer? w delivery = some (.failed ⟨.crash text, []⟩)) : delivery = .crashed text := by
  have hresult : ∀ result, ofResult result ≠ .failed ⟨.crash text, []⟩ := by
    intro result
    cases result <;> simp [ofResult]
  cases delivery with
  | pending => simp [answer?] at h
  | crashed other => simpa [answer?] using h
  | stopped stop =>
    cases stop with
    | endOfData => exact absurd (Option.some.inj h) (hresult _)
    | _ => simp [answer?, Error.wrap, Stop.toError] at h
  | byte b =>
    simp only [answer?] at h
    split at h
    · exact absurd (Option.some.inj h) (hresult _)
    · simp at h

/-- A reading that fails with a crash fails in its last call. -/
theorem Reads.crashes {flushed : Bool} {w : Wait} {channels : Channels} {moments : List Moment}
    {result : Fetched × Channels} (h : Reads flushed w channels moments result) {text : Bytes}
    (hcrash : result.1 = .failed ⟨.crash text, []⟩) :
    ∃ moment, moments.getLast? = some moment ∧ moment.Crashes text := by
  induction h with
  | unflushed => simp [Error.wrap] at hcrash
  | @flushCrashes w channels other h =>
    obtain rfl : other = text := by simpa using hcrash
    exact ⟨_, rfl, h⟩
  | flushed _ _ ih =>
    obtain ⟨moment, hlast, hmoment⟩ := ih hcrash
    exact ⟨moment, by simp [List.getLast?_cons, hlast], hmoment⟩
  | answered h =>
    obtain rfl : _ = Fetched.failed ⟨.crash text, []⟩ := hcrash
    exact ⟨_, rfl, next_of_answer_crash h⟩
  | further _ _ _ ih =>
    obtain ⟨moment, hlast, hmoment⟩ := ih hcrash
    exact ⟨moment, by simp [List.getLast?_cons, hlast], hmoment⟩

theorem fetch_of_absent {w : Wait} {channels : Channels} (h : channels.input = .absent) :
    fetch w channels = (ofResult w.atEnd, channels) ∧ fetchMoments w channels = [] := by
  obtain ⟨input, output⟩ := channels
  obtain rfl : input = .absent := h
  exact ⟨rfl, rfl⟩

theorem account_fetch (w : Wait) (channels : Channels) :
    Moment.Account channels (fetchMoments w channels) (fetch w channels).2 := by
  by_cases habsent : channels.input = .absent
  · obtain ⟨hfetch, hmoments⟩ := fetch_of_absent (w := w) habsent
    rw [hfetch, hmoments]
    exact Moment.Account.nil channels
  · exact (reads_fetch w habsent).account

theorem crashes_fetch {w : Wait} {channels : Channels} {text : Bytes}
    (h : (fetch w channels).1 = .failed ⟨.crash text, []⟩) :
    ∃ moment, (fetchMoments w channels).getLast? = some moment ∧ moment.Crashes text := by
  by_cases habsent : channels.input = .absent
  · rw [(fetch_of_absent habsent).1] at h
    cases hend : w.atEnd <;> simp [ofResult, hend] at h
  · exact (reads_fetch w habsent).crashes h

theorem account_emit (bytes : Bytes) (channels : Channels) :
    Moment.Account channels (emitMoments bytes channels) (emit bytes channels).2 := by
  have hafter : ∀ {result : Written} {output : Output},
      channels.output.write bytes = (result, output) →
      Moment.Account channels [⟨.write bytes, channels⟩] { channels with output } := by
    intro result output hwrite
    have honce := Moment.Account.once (.write bytes) channels
    simpa only [Moment.after, hwrite] using honce
  unfold emitMoments emit
  split
  · exact Moment.Account.nil channels
  · split
    all_goals
      rename_i hwrite
      exact hafter hwrite

theorem crashes_emit {bytes : Bytes} {channels : Channels} {text : Bytes}
    (h : (emit bytes channels).1 = some ⟨.crash text, []⟩) :
    ∃ moment, (emitMoments bytes channels).getLast? = some moment ∧ moment.Crashes text := by
  unfold emit at h
  unfold emitMoments
  split at h
  · simp at h
  · rename_i hthere
    rw [if_neg hthere]
    refine ⟨⟨.write bytes, channels⟩, rfl, by simpa using hthere, ?_⟩
    split at h
    · simp at h
    · simp [Error.wrap] at h
    · rename_i other output hwrite
      obtain rfl : other = text := by simpa using h
      rw [hwrite]

end Channels

/-- What an instruction writes, if it writes, given the selected cell. -/
def Instruction.written? (ins : Instruction) (v : Cell) : Option Bytes :=
  match ins.op with
  | .putChar => some [Cell.toByte v]
  | .putNumber => some (Cell.text v)
  | _ => none

namespace Machine

/-- The instruction that a step executes, if it comes to one. -/
def due? (m : Machine) : Option Instruction :=
  if m.status = .running ∧ m.inBounds then m.upcoming.toOption else none

def momentsOf (ins : Instruction) (m : Machine) : List Moment :=
  match waitOf? ins.op with
  | some w => Channels.fetchMoments w m.channels
  | none => (ins.written? m.current).elim [] fun bytes => Channels.emitMoments bytes m.channels

def Execution.map (f : Machine → Machine) : Execution → Execution
  | next m => next (f m)
  | halt m => halt (f m)
  | failed e m => failed e (f m)
  | waiting w m => waiting w (f m)

theorem execute_of_written {ins : Instruction} {m : Machine} {bytes : Bytes}
    (h : ins.written? m.current = some bytes) :
    execute ins m = m.afterEmit (Channels.emit bytes m.channels) := by
  cases hop : ins.op <;> simp_all [Instruction.written?, execute]

theorem execute_withChannels {ins : Instruction} {m : Machine} (hread : waitOf? ins.op = none)
    (hwrite : ins.written? m.current = none) (channels : Channels) :
    execute ins { m with channels } = (execute ins m).map fun m => { m with channels } := by
  cases hop : ins.op with
  | getChar | getNumber => simp [hop, waitOf?] at hread
  | putChar | putNumber => simp [hop, Instruction.written?] at hwrite
  | divide =>
    have hoperand : ∀ k, ({ m with channels } : Machine).operand k = m.operand k := fun _ => rfl
    simp only [execute, hop, hoperand]
    split <;> rfl
  | jumpIfPositive | jumpIfZero =>
    have hcurrent : ({ m with channels } : Machine).current = m.current := rfl
    simp only [execute, hop, hcurrent]
    split <;> rfl
  | _ =>
    simp only [execute, hop]
    rfl

@[simp] theorem channels_afterFetch (m : Machine) (result : Fetched × Channels) :
    (m.afterFetch result).machine.channels = result.2 := by
  obtain ⟨fetched, channels⟩ := result
  cases fetched <;> rfl

@[simp] theorem channels_afterEmit (m : Machine) (result : Option Error × Channels) :
    (m.afterEmit result).machine.channels = result.2 := by
  obtain ⟨error, channels⟩ := result
  cases error <;> rfl

theorem channels_execute {ins : Instruction} {m : Machine} (hread : waitOf? ins.op = none)
    (hwrite : ins.written? m.current = none) :
    (execute ins m).machine.channels = m.channels := by
  have hsame := execute_withChannels hread hwrite m.channels
  have hself : ({ m with channels := m.channels } : Machine) = m := rfl
  rw [hself] at hsame
  rw [hsame]
  cases execute ins m <;> rfl

theorem account_execute (ins : Instruction) (m : Machine) :
    Moment.Account m.channels (m.momentsOf ins) (execute ins m).machine.channels := by
  unfold momentsOf
  cases hread : waitOf? ins.op with
  | some w =>
    rw [execute_of_wait hread, channels_afterFetch]
    exact Channels.account_fetch w m.channels
  | none =>
    cases hwrite : ins.written? m.current with
    | some bytes =>
      rw [execute_of_written hwrite, channels_afterEmit]
      exact Channels.account_emit bytes m.channels
    | none =>
      rw [channels_execute hread hwrite]
      exact Moment.Account.nil m.channels

theorem fetched_of_failed {m failed : Machine} {result : Fetched × Channels} {e : Error}
    (h : m.afterFetch result = .failed e failed) : result.1 = .failed e := by
  obtain ⟨fetched, channels⟩ := result
  cases fetched <;> simp_all [afterFetch]

theorem error_of_failed {m failed : Machine} {result : Option Error × Channels} {e : Error}
    (h : m.afterEmit result = .failed e failed) : result.1 = some e := by
  obtain ⟨error, channels⟩ := result
  cases error <;> simp_all [afterEmit]

theorem crashes_execute {ins : Instruction} {m failed : Machine} {text : Bytes}
    (h : execute ins m = .failed ⟨.crash text, []⟩ failed) :
    ∃ moment, (m.momentsOf ins).getLast? = some moment ∧ moment.Crashes text := by
  unfold momentsOf
  cases hread : waitOf? ins.op with
  | some w =>
    rw [execute_of_wait hread] at h
    exact Channels.crashes_fetch (fetched_of_failed h)
  | none =>
    cases hwrite : ins.written? m.current with
    | some bytes =>
      rw [execute_of_written hwrite] at h
      exact Channels.crashes_emit (error_of_failed h)
    | none =>
      cases hop : ins.op with
      | getChar | getNumber => simp [hop, waitOf?] at hread
      | putChar | putNumber => simp [hop, Instruction.written?] at hwrite
      | divide =>
        simp only [execute, hop] at h
        split at h <;> simp at h
      | _ => simp [execute, hop] at h

theorem instruction?_of_isPastEnd {m : Machine} (h : m.isPastEnd = true) :
    m.instruction? = none := by
  have hpast : (m.program.code.size : Int) ≤ m.pc := of_decide_eq_true h
  have hnot : ¬ m.pc < 0 := by omega
  rw [instruction?, if_neg hnot]
  exact Array.getElem?_eq_none (by omega)

theorem due?_eq_some_iff {m : Machine} {ins : Instruction} :
    m.due? = some ins ↔ (m.status = .running ∧ m.inBounds = true) ∧ m.upcoming = .ok ins := by
  unfold due?
  split
  · rename_i hin
    cases m.upcoming <;> simp [Except.toOption, hin]
  · rename_i hnot
    simp [hnot]

theorem attempt_of_due {m : Machine} {ins : Instruction} (h : m.due? = some ins) :
    m.attempt = execute ins (m.note ins) := by
  obtain ⟨⟨-, hin⟩, hupcoming⟩ := due?_eq_some_iff.mp h
  have hpast : ¬ m.isPastEnd = true := by
    intro hpast
    have hhere := (upcoming_eq_ok_iff.mp hupcoming).1
    simp [instruction?_of_isPastEnd hpast] at hhere
  rw [attempt, if_neg hpast, perform, if_pos hin, hupcoming]

theorem attempt_of_not_due {m : Machine} (hrunning : m.status = .running) (h : m.due? = none) :
    (m.isPastEnd = true ∧ m.attempt = .next m) ∨
      (m.isPastEnd = false ∧ ∃ e, m.attempt = .failed e m ∧
        (e = ⟨.outOfBounds m.ptr m.mem.size, []⟩ ∨ m.upcoming = .error e)) := by
  cases hpast : m.isPastEnd with
  | true => exact Or.inl ⟨rfl, by simp [attempt, hpast]⟩
  | false =>
    refine Or.inr ⟨rfl, ?_⟩
    rw [attempt, hpast]
    by_cases hin : m.inBounds = true
    · cases hupcoming : m.upcoming with
      | ok ins => simp [due?_eq_some_iff.mpr ⟨⟨hrunning, hin⟩, hupcoming⟩] at h
      | error e => exact ⟨e, by simp [perform, hin, hupcoming], Or.inr rfl⟩
    · rw [perform, if_neg hin]
      exact ⟨_, rfl, Or.inl rfl⟩

theorem machine_attempt_of_not_due {m : Machine} (hrunning : m.status = .running)
    (h : m.due? = none) : m.attempt.machine = m := by
  rcases attempt_of_not_due hrunning h with ⟨-, heq⟩ | ⟨-, e, heq, -⟩
  · rw [heq]
    rfl
  · rw [heq]
    rfl

@[simp] theorem current_note (ins : Instruction) (m : Machine) :
    (m.note ins).current = m.current := by
  rw [note_eq]
  rfl

@[simp] theorem momentsOf_note (ins other : Instruction) (m : Machine) :
    (m.note other).momentsOf ins = m.momentsOf ins := by
  simp [momentsOf]

end Machine

namespace Phase

open Machine

def execution : Phase → Execution
  | ready m => m.attempt
  | waiting w m => m.goOn w

/-- The calls that are made in a phase, before the program ends. -/
def moments : Phase → List Moment
  | ready m => m.due?.elim [] fun ins => m.momentsOf ins
  | waiting w m => Channels.receiveMoments w m.channels

theorem step_eq_settle {p : Phase} (h : p.machine.status = .running) :
    p.step = settle p.execution := by
  cases p with
  | ready m => exact step_of_running h
  | waiting w m => exact resume_eq w m

theorem next_of_running {p : Phase} (h : p.machine.status = .running) :
    p.next = ofStep (settle p.execution) := by
  rw [next, step_eq_settle h]

theorem next_of_ended {m : Machine} (h : m.status = .ended) : (ready m).next = ready m := by
  rw [next, step, step_of_ended h]
  rfl

theorem leads (p : Phase) : p.machine.Leads p.execution := by
  cases p with
  | ready m => exact m.leads_attempt
  | waiting w m => exact leads_goOn w m

theorem waiting_of_settle {x : Execution} {w : Wait} {m : Machine}
    (h : ofStep (settle x) = .waiting w m) : x = .waiting w m := by
  have hsettles := settles x
  generalize settle x = s at h hsettles
  cases hsettles with
  | waits => simpa [ofStep] using h
  | _ => simp [ofStep] at h

/-- What is executed in a phase makes the calls of the phase and no others. -/
theorem account {p : Phase} (h : p.machine.status = .running) :
    Moment.Account p.machine.channels p.moments p.execution.machine.channels := by
  cases p with
  | waiting w m =>
    rw [execution, goOn, channels_afterFetch]
    exact (Channels.reads_receive w m.channels).account
  | ready m =>
    cases hdue : m.due? with
    | some ins =>
      have haccount := account_execute ins (m.note ins)
      rw [channels_note, momentsOf_note] at haccount
      simpa only [machine, moments, execution, hdue, attempt_of_due hdue, Option.elim_some]
        using haccount
    | none =>
      have hstays : m.attempt.machine = m := machine_attempt_of_not_due h hdue
      simp only [machine, moments, execution, hdue, hstays, Option.elim_none]
      exact Moment.Account.nil m.channels

end Phase

end Sardine
