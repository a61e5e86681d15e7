import Sardine.Proofs.Contents
import Sardine.Proofs.Lockstep
import Sardine.Proofs.Registers

/-! What a program has written can be seen before it reads.
A buffer holds back what is written, but everything has reached the device whenever the input is
asked for a byte, and when the program has ended. Apart from that a program does not notice whether
there is a buffer. -/
namespace Sardine

namespace Channels

def mute (channels : Channels) : Channels := { channels with output := .absent }

theorem receive_of_answer {w : Wait} {channels : Channels} {fetched : Fetched}
    (h : answer? w channels.input.next.1 = some fetched) :
    receive w channels = (fetched, Moment.after ⟨.ask, channels⟩) := by
  rw [receive]
  split
  all_goals
    rename_i hnext
    rw [after_ask hnext]
    rw [hnext] at h
  · simpa [answer?] using h
  · simpa [answer?] using h
  · simpa [answer?] using h
  · rename_i stop input hstop
    cases stop with
    | endOfData => exact absurd rfl hstop
    | _ => simpa [answer?] using h
  · simp only [answer?] at h
    split at h
    · rename_i result haccept
      simpa [haccept] using h
    · simp at h

section Reliable

variable {buffer : Bool}

/-- A reading loses nothing, and whenever it asks for a byte everything has reached the device. -/
theorem Reads.visible {flushed : Bool} {w : Wait} {channels : Channels} {moments : List Moment}
    {result : Fetched × Channels} (h : Reads flushed w channels moments result)
    (hreliable : channels.output.Reliable buffer)
    (hvisible : flushed = true → channels.output.received = channels.output.content) :
    (∀ moment ∈ moments, moment.use = .ask →
        moment.channels.output.received = channels.output.content) ∧
      result.2.output.Reliable buffer ∧ result.2.output.content = channels.output.content ∧
      result.2.output.received = channels.output.content := by
  -- A flush comes before each further byte: the flag carries over what can be seen at the next one.
  induction h with
  | unflushed h | flushCrashes h =>
    obtain ⟨after, hflush, -⟩ := hreliable.flush
    simp [hflush] at h
  | @flushed w channels moments result h _ ih =>
    obtain ⟨output, hflush, hafter, hreceived, hcontent⟩ := hreliable.flush
    rw [after_flush hflush] at ih
    obtain ⟨hasks, hlast⟩ := ih hafter fun _ => hreceived.trans hcontent.symm
    have hcontent : ({ channels with output } : Channels).output.content =
      channels.output.content := hcontent
    rw [hcontent] at hasks hlast
    refine ⟨?_, hlast⟩
    intro moment hmem huse
    rcases List.mem_cons.mp hmem with rfl | hmem
    · simp at huse
    · exact hasks moment hmem huse
  | answered h =>
    refine ⟨?_, hreliable, rfl, hvisible rfl⟩
    intro moment hmem huse
    obtain rfl := List.mem_singleton.mp hmem
    exact hvisible rfl
  | further h hmore _ ih =>
    obtain ⟨hasks, hlast⟩ := ih hreliable (by simp)
    refine ⟨?_, hlast⟩
    intro moment hmem huse
    rcases List.mem_cons.mp hmem with rfl | hmem
    · exact hvisible rfl
    · exact hasks moment hmem huse

/-- A reading does not notice the output. -/
theorem Reads.mute {flushed : Bool} {w : Wait} {channels : Channels} {moments : List Moment}
    {result : Fetched × Channels} (h : Reads flushed w channels moments result)
    (hreliable : channels.output.Reliable buffer) :
    receive w channels.mute = (result.1, result.2.mute) := by
  induction h with
  | unflushed h | flushCrashes h =>
    obtain ⟨after, hflush, -⟩ := hreliable.flush
    simp [hflush] at h
  | flushed h _ ih =>
    obtain ⟨output, hflush, hafter, -⟩ := hreliable.flush
    rw [after_flush hflush] at ih
    exact ih hafter
  | @answered w channels fetched h =>
    have hmute : answer? w channels.mute.input.next.1 = some fetched := h
    exact receive_of_answer hmute
  | @further w more channels b moments result h hmore _ ih =>
    have hnext : channels.mute.input.next = (.byte b, channels.input.next.2) := Prod.ext h rfl
    have hreceive : receive w channels.mute = _ := receive_of_byte hnext
    rw [hmore] at hreceive
    exact hreceive.trans (ih hreliable)

variable {channels : Channels} (h : channels.output.Reliable buffer)
include h

theorem receive_mute (w : Wait) :
    receive w channels.mute = ((receive w channels).1, (receive w channels).2.mute) :=
  (reads_receive w channels).mute h

theorem fetch_mute (w : Wait) :
    fetch w channels.mute = ((fetch w channels).1, (fetch w channels).2.mute) := by
  by_cases habsent : channels.input = .absent
  · have hmute : channels.mute.input = .absent := habsent
    rw [(fetch_of_absent habsent).1, (fetch_of_absent hmute).1]
  · rw [← (reads_fetch w habsent).mute h]
    obtain ⟨input, output⟩ := channels
    cases input with
    | absent => exact absurd rfl habsent
    | _ => rfl

theorem emit_of_reliable (bytes : Bytes) :
    ∃ output, emit bytes channels = (none, { channels with output }) ∧ output.Reliable buffer ∧
      output.content = channels.output.content ++ bytes := by
  obtain ⟨n, output, hwrite, houtput, hcontent⟩ := h.write bytes
  refine ⟨output, ?_, houtput, hcontent⟩
  rw [emit, h.isAbsent, hwrite]
  rfl

theorem shut_of_reliable :
    ∃ output, channels.shut = (.ok (), { channels with output }) ∧ output.Reliable buffer ∧
      output.received = channels.output.content ∧ output.content = channels.output.content := by
  obtain ⟨flushed, hflush, hflushed, hreceived, hcontent⟩ := h.flush
  obtain ⟨output, hclose, houtput, hreceived', hcontent'⟩ := hflushed.close
  refine ⟨output, ?_, houtput, hreceived'.trans hreceived, hcontent'.trans hcontent⟩
  simp only [shut, hflush, hclose]

end Reliable

end Channels

namespace Machine

def mute (m : Machine) : Machine := { m with channels := m.channels.mute }

theorem note_mute (ins : Instruction) (m : Machine) : m.mute.note ins = (m.note ins).mute :=
  note_map rfl rfl rfl fun _ _ => rfl

theorem afterFetch_mute (m : Machine) (fetched : Fetched) (channels : Channels) :
    m.mute.afterFetch (fetched, channels.mute) = (m.afterFetch (fetched, channels)).map mute := by
  cases fetched <;> rfl

theorem map_mute (x : Execution) :
    (x.map fun m => { m with channels := x.machine.channels.mute }) = x.map mute := by
  cases x <;> rfl

def emission (m : Machine) : Bytes :=
  (m.due?.bind fun ins => ins.written? m.current).getD []

/-- An execution has written some bytes, and nothing is lost. If it waits, everything has reached
the device. -/
structure Delivers (buffer : Bool) (m : Machine) (bytes : Bytes) (x : Execution) : Prop where
  reliable : x.machine.channels.output.Reliable buffer
  content : x.machine.channels.output.content = m.channels.output.content ++ bytes
  visible : ∀ w after, x = .waiting w after →
    after.channels.output.received = after.channels.output.content

theorem delivers_afterFetch {buffer : Bool} {m : Machine} {result : Fetched × Channels}
    (hreliable : result.2.output.Reliable buffer)
    (hcontent : result.2.output.content = m.channels.output.content)
    (hvisible : ∀ w, result.1 = .waiting w →
      result.2.output.received = result.2.output.content) :
    Delivers buffer m [] (m.afterFetch result) := by
  refine ⟨?_, ?_, ?_⟩
  · rwa [channels_afterFetch]
  · rwa [channels_afterFetch, List.append_nil]
  · intro w after hwaits
    obtain ⟨fetched, channels⟩ := result
    cases fetched with
    | waiting held =>
      obtain ⟨rfl, rfl⟩ := Execution.waiting.inj hwaits
      exact hvisible held rfl
    | _ => simp [afterFetch] at hwaits

section Reliable

variable {buffer : Bool} {m : Machine} (h : m.channels.output.Reliable buffer)
include h

theorem execute_mute (ins : Instruction) : execute ins m.mute = (execute ins m).map mute := by
  cases hread : waitOf? ins.op with
  | some w =>
    have hfetch : Channels.fetch w m.mute.channels = _ := Channels.fetch_mute h w
    rw [execute_of_wait hread, execute_of_wait hread, hfetch]
    exact afterFetch_mute m _ _
  | none =>
    cases hwrite : ins.written? m.current with
    | some bytes =>
      have hmute : ins.written? m.mute.current = some bytes := hwrite
      obtain ⟨output, hemit, -⟩ := Channels.emit_of_reliable h bytes
      rw [execute_of_written hwrite, execute_of_written hmute, hemit]
      rfl
    | none =>
      rw [← map_mute, channels_execute hread hwrite]
      exact execute_withChannels hread hwrite m.channels.mute

theorem attempt_mute : m.mute.attempt = m.attempt.map mute := by
  have hpast : m.mute.isPastEnd = m.isPastEnd := rfl
  have hin : m.mute.inBounds = m.inBounds := rfl
  have hupcoming : m.mute.upcoming = m.upcoming := rfl
  unfold attempt perform
  rw [hpast, hin, hupcoming]
  split
  · rfl
  · split
    · cases m.upcoming with
      | error e => rfl
      | ok ins =>
        have hnoted : (m.note ins).channels.output.Reliable buffer := by rwa [channels_note]
        have hexecute := execute_mute hnoted ins
        rwa [← note_mute] at hexecute
    · rfl

theorem goOn_mute (w : Wait) : m.mute.goOn w = (m.goOn w).map mute := by
  have hreceive : Channels.receive w m.mute.channels = _ := Channels.receive_mute h w
  rw [goOn, hreceive]
  exact afterFetch_mute m _ _

theorem finish_mute (error : Option Error) :
    m.mute.finish error = (m.finish error).map mute := by
  obtain ⟨output, hshut, -⟩ := Channels.shut_of_reliable h
  have hmute : m.mute.channels.shut = (.ok (), m.mute.channels) := rfl
  unfold finish
  rw [hshut, hmute]
  cases error <;> rfl

theorem delivers_fetch (w : Wait) :
    Delivers buffer m [] (m.afterFetch (Channels.fetch w m.channels)) := by
  by_cases habsent : m.channels.input = .absent
  · rw [(Channels.fetch_of_absent habsent).1]
    refine delivers_afterFetch h rfl ?_
    exact fun held hwaits => absurd hwaits (Channels.ofResult_ne_waiting _ held)
  · obtain ⟨-, hreliable, hcontent, hreceived⟩ :=
      (Channels.reads_fetch w habsent).visible h (by simp)
    exact delivers_afterFetch hreliable hcontent fun _ _ => hreceived.trans hcontent.symm

theorem delivers_goOn (hvisible : m.channels.output.received = m.channels.output.content)
    (w : Wait) : Delivers buffer m [] (m.goOn w) := by
  obtain ⟨-, hreliable, hcontent, hreceived⟩ :=
    (Channels.reads_receive w m.channels).visible h fun _ => hvisible
  exact delivers_afterFetch hreliable hcontent fun _ _ => hreceived.trans hcontent.symm

theorem delivers_execute (ins : Instruction) :
    Delivers buffer m ((ins.written? m.current).getD []) (execute ins m) := by
  cases hread : waitOf? ins.op with
  | some w =>
    have hnone : ins.written? m.current = none := by
      cases hop : ins.op <;> simp_all [waitOf?, Instruction.written?]
    rw [hnone, execute_of_wait hread]
    exact delivers_fetch h w
  | none =>
    cases hwrite : ins.written? m.current with
    | some bytes =>
      obtain ⟨output, hemit, hreliable, hcontent⟩ := Channels.emit_of_reliable h bytes
      rw [execute_of_written hwrite, hemit]
      exact ⟨hreliable, hcontent, by simp [afterEmit]⟩
    | none =>
      have hchannels := channels_execute hread hwrite
      refine ⟨by rwa [hchannels], by simp [hchannels], ?_⟩
      exact fun w after hwaits => absurd hwaits (execute_ne_waiting hread m w after)

theorem received_of_ask {ins : Instruction} {moment : Moment} (hmem : moment ∈ m.momentsOf ins)
    (huse : moment.use = .ask) :
    moment.channels.output.received = m.channels.output.content := by
  unfold momentsOf at hmem
  split at hmem
  · rename_i w _
    by_cases habsent : m.channels.input = .absent
    · simp [(Channels.fetch_of_absent (w := w) habsent).2] at hmem
    · exact ((Channels.reads_fetch w habsent).visible h (by simp)).1 moment hmem huse
  · cases hwrite : ins.written? m.current with
    | none => simp [hwrite] at hmem
    | some bytes =>
      rw [hwrite, Option.elim_some, Channels.emitMoments, h.isAbsent] at hmem
      obtain rfl : moment = ⟨.write bytes, m.channels⟩ := by simpa using hmem
      simp at huse

theorem delivers_attempt (hrunning : m.status = .running) :
    Delivers buffer m m.emission m.attempt := by
  unfold emission
  cases hdue : m.due? with
  | some ins =>
    have hnoted : (m.note ins).channels.output.Reliable buffer := by rwa [channels_note]
    have hdelivers := delivers_execute hnoted ins
    have hcontent := hdelivers.content
    rw [current_note, channels_note] at hcontent
    rw [attempt_of_due hdue]
    exact ⟨hdelivers.reliable, hcontent, hdelivers.visible⟩
  | none =>
    rcases attempt_of_not_due hrunning hdue with ⟨-, heq⟩ | ⟨-, e, heq, -⟩ <;> rw [heq]
    all_goals exact ⟨h, by simp [Execution.machine], by simp⟩

end Reliable

end Machine

namespace Phase

open Machine

/-- What is written in a phase. An instruction that waits writes nothing. -/
def emission : Phase → Bytes
  | ready m => m.emission
  | waiting _ _ => []

def emitted (past : List Phase) : Bytes := past.flatMap emission

@[simp] theorem emitted_concat (past : List Phase) (p : Phase) :
    emitted (past ++ [p]) = emitted past ++ p.emission := by
  simp [emitted]

/-- In a phase some bytes have been written. If the machine waits or has ended, all of them have
reached the device. -/
structure Shows (buffer : Bool) (bytes : Bytes) (p : Phase) : Prop where
  reliable : p.machine.channels.output.Reliable buffer
  content : p.machine.channels.output.content = bytes
  waiting : ∀ w m, p = .waiting w m →
    m.status = .running ∧ m.channels.output.received = bytes
  ended : p.machine.status = .ended → p.machine.channels.output.received = bytes

section Shows

variable {buffer : Bool} {bytes : Bytes} {p : Phase} (h : p.Shows buffer bytes)
include h

theorem Shows.withInput (input : Input) : (p.withInput input).Shows buffer bytes := by
  cases p with
  | ready m => exact ⟨h.reliable, h.content, by simp [Phase.withInput], h.ended⟩
  | waiting w m =>
    refine ⟨h.reliable, h.content, ?_, h.ended⟩
    intro held after hwaits
    obtain ⟨rfl, rfl⟩ := Phase.waiting.inj hwaits
    exact h.waiting w m rfl

theorem Shows.asks {moment : Moment} (hmem : moment ∈ p.moments) (huse : moment.use = .ask) :
    moment.channels.output.received = bytes := by
  rw [← h.content]
  cases p with
  | ready m =>
    cases hdue : m.due? with
    | none => simp [moments, hdue] at hmem
    | some ins =>
      rw [moments, hdue] at hmem
      exact received_of_ask h.reliable hmem huse
  | waiting w m =>
    have hvisible := (h.waiting w m rfl).2.trans h.content.symm
    exact ((Channels.reads_receive w m.channels).visible h.reliable fun _ => hvisible).1 moment
      hmem huse

theorem Shows.delivers (hrunning : p.machine.status = .running) :
    Delivers buffer p.machine p.emission p.execution := by
  cases p with
  | ready m => exact delivers_attempt h.reliable hrunning
  | waiting w m => exact delivers_goOn h.reliable ((h.waiting w m rfl).2.trans h.content.symm) w

theorem Shows.eq_ready (hended : p.machine.status = .ended) :
    p = .ready p.machine ∧ p.emission = [] := by
  cases p with
  | ready m =>
    have hended : m.status = .ended := hended
    exact ⟨rfl, by simp [Phase.emission, Machine.emission, due?, hended]⟩
  | waiting w m => exact absurd ((h.waiting w m rfl).1.symm.trans hended) (by simp)

theorem Shows.next : p.next.Shows buffer (bytes ++ p.emission) := by
  cases hstatus : p.machine.status with
  | ended =>
    obtain ⟨hready, hnone⟩ := h.eq_ready hstatus
    have hstays : p.next = p := by
      rw [hready]
      exact next_of_ended hstatus
    rw [hnone, List.append_nil, hstays]
    exact h
  | running =>
    obtain ⟨hreliable, hcontent, hvisible⟩ := h.delivers hstatus
    rw [h.content] at hcontent
    have hleads := p.leads
    rw [next_of_running hstatus]
    rcases settle_cases p.execution with ⟨m, hx, -, hsettle⟩ | ⟨w, m, hx, hsettle⟩ | hended
    · rw [hsettle]
      rw [hx] at hreliable hcontent hleads
      have hrunning : m.status = .running := hleads.status.trans hstatus
      exact ⟨hreliable, hcontent, by simp [ofStep], fun hended =>
        absurd (hrunning.symm.trans hended) (by simp)⟩
    · rw [hsettle]
      rw [hx] at hreliable hcontent hleads
      have hrunning : m.status = .running := hleads.status.trans hstatus
      refine ⟨hreliable, hcontent, ?_, fun hended =>
        absurd (hrunning.symm.trans hended) (by simp)⟩
      intro held after hwaits
      obtain ⟨rfl, rfl⟩ := Phase.waiting.inj hwaits
      exact ⟨hrunning, (hvisible _ _ hx).trans hcontent⟩
    -- The program ends, and shutting the output flushes it once more.
    · obtain ⟨output, hshut, hafter, hreceived, hall⟩ := Channels.shut_of_reliable hreliable
      rw [hshut] at hended
      refine ⟨?_, ?_, ?_, ?_⟩
      · rwa [machine_ofStep, hended]
      · rw [machine_ofStep, hended]
        exact hall.trans hcontent
      · intro w m hwaits
        rw [waiting_of_settle hwaits] at hended hleads
        have hrunning : m.status = .running := hleads.status.trans hstatus
        exact absurd (hrunning.symm.trans (congrArg Machine.status hended)) (by simp)
      · rw [machine_ofStep, hended]
        exact fun _ => hreceived.trans hcontent

theorem Shows.step_mute : (p.map mute).step = p.step.map mute := by
  cases hstatus : p.machine.status with
  | ended =>
    rw [(h.eq_ready hstatus).1]
    have hmute : p.machine.mute.status = .ended := hstatus
    rw [map, step, step, step_of_ended hstatus, step_of_ended hmute]
    rfl
  | running =>
    have hmute : (p.map mute).machine.status = .running := by
      rw [machine_map]
      exact hstatus
    have hexecution : (p.map mute).execution = p.execution.map mute := by
      cases p with
      | ready m => exact attempt_mute h.reliable
      | waiting w m => exact goOn_mute h.reliable w
    rw [step_eq_settle hmute, step_eq_settle hstatus, hexecution]
    exact settle_map rfl (finish_mute (h.delivers hstatus).reliable)

end Shows

/-- Along all calls what has been written is what the instructions have emitted. -/
theorem Passes.shows {buffer : Bool} {bytes : Bytes} {start p : Phase} {past : List Phase}
    (h : Passes start past p) (hstart : start.Shows buffer bytes) :
    p.Shows buffer (bytes ++ emitted past) ∧
      ∀ before q after, past = before ++ q :: after → q.Shows buffer (bytes ++ emitted before) := by
  induction h with
  | start =>
    rw [emitted, List.flatMap_nil, List.append_nil]
    exact ⟨hstart, by simp⟩
  | supply _ _ q ih => exact ⟨ih.1.withInput _, ih.2⟩
  | @pass past p _ ih =>
    constructor
    · rw [emitted_concat, ← List.append_assoc]
      exact ih.1.next
    · intro before q after hpast
      rcases List.eq_nil_or_concat after with rfl | ⟨more, last, rfl⟩
      · obtain ⟨rfl, hlast⟩ := List.append_inj' hpast rfl
        obtain rfl : p = q := by simpa using hlast
        exact ih.1
      · rw [List.concat_eq_append, ← List.cons_append, ← List.append_assoc] at hpast
        exact ih.2 before q more (List.append_inj' hpast rfl).1

/-- Two phases that differ in the output only, to which the same has been written. -/
def Twins (p other : Phase) : Prop :=
  other.map mute = p.map mute ∧ ∃ bytes, p.Shows true bytes ∧ other.Shows false bytes

theorem emission_mute (p : Phase) : (p.map mute).emission = p.emission := by
  cases p <;> rfl

theorem map_withInput (input : Input) (p : Phase) :
    (p.withInput input).map mute = (p.map mute).withInput input := by
  cases p <;> rfl

/-- Phases with and without a buffer go in lockstep. -/
theorem lockstep_twins : Lockstep Twins where
  step := by
    rintro p other ⟨hmute, bytes, hp, hother⟩
    have hstep : p.step.map mute = other.step.map mute := by
      rw [← hp.step_mute, ← hother.step_mute, hmute]
    have hemission : other.emission = p.emission := by
      rw [← emission_mute, hmute, emission_mute]
    have hnext := hother.next
    rw [hemission] at hnext
    refine alike_of_map_eq hstep ⟨?_, _, hp.next, hnext⟩
    rw [← ofStep_map, ← ofStep_map, hstep]
  status := by
    rintro m other ⟨hmute, -⟩
    exact congrArg (fun p : Phase => p.machine.status) hmute.symm
  queue := by
    rintro p other ⟨hmute, -⟩ q
    have hmachine := congrArg Phase.machine hmute
    rw [machine_map, machine_map] at hmachine
    have hinput : other.machine.mute.channels.input = p.machine.mute.channels.input := by
      rw [hmachine]
    have hinput : other.machine.channels.input = p.machine.channels.input := hinput
    rw [hinput]
  supply := by
    rintro p other held ⟨hmute, bytes, hp, hother⟩ - q
    refine ⟨?_, bytes, hp.withInput _, hother.withInput _⟩
    rw [map_withInput, map_withInput, hmute]

end Phase

/-- When a call is suspended or the program has ended, everything has reached the device. -/
theorem Session.received_of_shows {buffer : Bool} {bytes : Bytes} {s : Session}
    (h : s.phase.Shows buffer bytes) (hat : s.isBusy = true ∨ s.machine.status = .ended) :
    s.machine.channels.output.received = bytes := by
  obtain ⟨m, _ | ⟨activity, w⟩⟩ := s
  · rcases hat with hbusy | hended
    · simp [Session.isBusy] at hbusy
    · exact h.ended hended
  · exact (h.waiting w m rfl).2

/-- A machine that writes through a buffer to a device of which no call fails. Whatever calls are
made, and in each of their phases, everything that `PUTC` and `PUTN` have emitted before has reached
the device whenever the input is asked for a byte, and also when a call is suspended and when the
program has ended. The calls come back as with a device without a buffer, and what this device has
received is the same. -/
theorem output_visible_before_reads {m : Machine} {device sink : Device}
    (hm : m.channels.output = .buffered { device }) (hdevice : device.Reliable)
    (hsink : sink.Reliable) (hsame : sink.received = device.received)
    (actions : List Session.Action) :
    let start : Session := { machine := m }
    let plain : Session :=
      { machine := { m with channels := { m.channels with output := .direct sink } } }
    let s := (start.actAll actions).2
    let s' := (plain.actAll actions).2
    (∀ before p after, start.history actions = before ++ p :: after →
        (p.machine.status = .running →
          Moment.Account p.machine.channels p.moments p.execution.machine.channels) ∧
        ∀ moment ∈ p.moments, moment.use = .ask →
          moment.channels.output.received = device.received ++ Phase.emitted before) ∧
      (s.isBusy = true ∨ s.machine.status = .ended →
        s.machine.channels.output.received =
          device.received ++ Phase.emitted (start.history actions)) ∧
      (plain.actAll actions).1 = (start.actAll actions).1 ∧
      List.Forall₂ (fun p p' : Phase => p'.map Machine.mute = p.map Machine.mute ∧
        ∀ moment ∈ p.moments, moment.use = .ask →
          moment.channels.output.received = p'.machine.channels.output.received)
        (start.history actions) (plain.history actions) ∧
      (s.isBusy = true ∨ s.machine.status = .ended →
        s.machine.channels.output.received = s'.machine.channels.output.received) := by
  intro start plain s s'
  have hcontent : m.channels.output.content = device.received := by
    rw [hm]
    exact BufferedDevice.content_of_empty rfl
  have hstart : start.phase.Shows true device.received := by
    refine ⟨?_, hcontent, by simp [start, Session.phase], fun _ => ?_⟩
    · rw [Session.machine_phase, hm]
      exact Output.Reliable.buffered ⟨hdevice, rfl⟩
    · rw [Session.machine_phase, hm]
      rfl
  have hplain : plain.phase.Shows false device.received :=
    ⟨Output.Reliable.direct hsink, hsame, by simp [plain, Session.phase], fun _ => hsame⟩
  have hpaired : Session.Paired Phase.Twins start plain :=
    ⟨⟨rfl, device.received, hstart, hplain⟩, rfl⟩
  obtain ⟨hlast, hpast⟩ := (start.passes_actAll actions).shows hstart
  obtain ⟨hreplies, hphases, hsessions⟩ := Phase.lockstep_twins.actAll hpaired actions
  refine ⟨?_, Session.received_of_shows hlast, hreplies.symm, hphases.imp ?_, ?_⟩
  · intro before p after hsplit
    exact ⟨Phase.account, fun moment => (hpast before p after hsplit).asks⟩
  · rintro p p' ⟨hmute, bytes, hp, hp'⟩
    have hreceived := hp'.reliable.received_eq.trans hp'.content
    refine ⟨hmute, fun moment hmem huse => ?_⟩
    rw [hreceived]
    exact hp.asks hmem huse
  · intro hat
    obtain ⟨-, bytes, hs, hs'⟩ := hsessions.phase
    have hreceived := hs'.reliable.received_eq.trans hs'.content
    rw [Session.machine_phase] at hreceived
    exact (Session.received_of_shows hs hat).trans hreceived.symm

/-- A number is written, and then a character is read and written. Both are still in the buffer when
they are written, but the number can be seen while the machine waits, and both at the end. -/
theorem output_visible_before_reads_echo :
    let m : Machine :=
      { program := ⟨#[{ op := .putNumber }, { op := .getChar }, { op := .putChar }], []⟩
        mem := #[7]
        channels := { input := .queue {}, output := .buffered { device := {} } } }
    let start : Session := { machine := m }
    let written := (start.actAll [.step]).2
    let waiting := (start.actAll [.step, .run 9]).2
    let ended := (start.actAll [.step, .run 9, .produce (.write (utf8 "x")) 9]).2
    written.machine.channels.output.received = [] ∧
      (waiting.isBusy = true ∧ waiting.machine.channels.output.received = utf8 "7") ∧
      ended.machine.status = .ended ∧ ended.machine.channels.output.received = utf8 "7x" := by
  intro m start written waiting ended
  have hreliable : Device.Reliable {} := Device.reliable_of_faults rfl
  have hm : m.channels.output = .buffered { device := {} } := rfl
  have hbusy : waiting.isBusy = true := by decide +kernel
  have hended : ended.machine.status = .ended := by decide +kernel
  obtain ⟨-, hwaits, -⟩ := output_visible_before_reads hm hreliable hreliable rfl [.step, .run 9]
  obtain ⟨-, hends, -⟩ := output_visible_before_reads hm hreliable hreliable rfl
    [.step, .run 9, .produce (.write (utf8 "x")) 9]
  refine ⟨by decide +kernel, ⟨hbusy, ?_⟩, hended, ?_⟩
  · rw [hwaits (Or.inl hbusy)]
    decide +kernel
  · rw [hends (Or.inr hended)]
    decide +kernel

end Sardine
