import Sardine.Proofs.Bounds
import Sardine.Proofs.Ending
import Sardine.Proofs.Reading
import Sardine.Proofs.Tracking

/-! A program that echoes its input.
It reads a byte at a time, and tells the end of the data from a byte by its sign: the byte is
negated and, unless it has become positive, negated again and written. A byte of zero is written as
well, but the loop does not go on after it. -/
namespace Sardine

namespace Cell

theorem not_pos_neg_ofByte (b : UInt8) : ¬ 0 < -ofByte b := by
  have hall : ∀ n : Fin 256, ¬ 0 < -ofByte (UInt8.ofFin n) := by decide +kernel
  exact hall b.toFin

theorem pos_ofByte_iff (b : UInt8) : 0 < ofByte b ↔ b ≠ 0 := by
  have hall : ∀ n : Fin 256, 0 < ofByte (UInt8.ofFin n) ↔ UInt8.ofFin n ≠ 0 := by decide +kernel
  exact hall b.toFin

theorem toByte_ofByte (b : UInt8) : toByte (ofByte b) = b := by
  have hall : ∀ n : Fin 256, toByte (ofByte (UInt8.ofFin n)) = UInt8.ofFin n := by decide +kernel
  exact hall b.toFin

theorem pos_neg_endCell : 0 < -endCell := by decide +kernel

end Cell

def upToZero (bytes : Bytes) : Bytes := bytes.take (bytes.idxOf 0 + 1)

theorem upToZero_cons (b : UInt8) (bytes : Bytes) :
    upToZero (b :: bytes) = b :: if b = 0 then [] else upToZero bytes := by
  by_cases hb : b = 0
  · simp [upToZero, hb]
  · simp [upToZero, hb]

/-- How many times an input is read while it is echoed: once for each byte, and once more at the end
of the data, if that is reached. -/
def readCount (bytes : Bytes) : Nat := (upToZero bytes).length + if 0 ∈ bytes then 0 else 1

theorem readCount_cons (b : UInt8) (bytes : Bytes) :
    readCount (b :: bytes) = if b = 0 then 1 else readCount bytes + 1 := by
  by_cases hb : b = 0
  · simp [readCount, upToZero_cons, hb]
  · have hne : ¬ 0 = b := fun heq => hb heq.symm
    simp only [readCount, upToZero_cons, hb, if_false, List.length_cons, List.mem_cons, hne,
      false_or]
    omega

/-- The calls with which an input is echoed: a flush before each reading, and a write after it. -/
def echoCalls : Bytes → List Call
  | [] => [.flush true]
  | b :: bytes => .flush true :: .write true [b] :: if b = 0 then [] else echoCalls bytes

theorem count_flush_echoCalls (bytes : Bytes) :
    (echoCalls bytes).count (.flush true) = readCount bytes := by
  induction bytes with
  | nil => rfl
  | cons b bytes ih =>
    rw [echoCalls, readCount_cons]
    by_cases hb : b = 0
    · simp [hb]
    · simp [hb, ih]

theorem count_close_echoCalls (bytes : Bytes) :
    (echoCalls bytes).count (.close true) = 0 := by
  induction bytes with
  | nil => rfl
  | cons b bytes ih =>
    rw [echoCalls]
    by_cases hb : b = 0
    · simp [hb]
    · simp [hb, ih]

namespace Output

def echo : Bytes → Output → Output
  | [], output => output.flush.2
  | b :: bytes, output =>
    if b = 0 then (output.flush.2.write [b]).2 else echo bytes (output.flush.2.write [b]).2

section Reliable

variable {buffer : Bool} {output : Output} (h : output.Reliable buffer)
include h

theorem Reliable.flush_eq : output.flush = (.ok (), output.flush.2) ∧
    output.flush.2.Reliable buffer ∧ output.flush.2.content = output.content := by
  obtain ⟨after, hflush, hafter, -, hcontent⟩ := h.flush
  rw [hflush]
  exact ⟨rfl, hafter, hcontent⟩

theorem Reliable.emit_eq (input : Input) (bytes : Bytes) :
    Channels.emit bytes ⟨input, output⟩ = (none, ⟨input, (output.write bytes).2⟩) ∧
      (output.write bytes).2.Reliable buffer ∧
      (output.write bytes).2.content = output.content ++ bytes := by
  obtain ⟨n, after, hwrite, hafter, hcontent⟩ := h.write bytes
  rw [Channels.emit, h.isAbsent, hwrite]
  exact ⟨rfl, hafter, hcontent⟩

theorem Reliable.shut_eq (input : Input) :
    Channels.shut ⟨input, output⟩ = (.ok (), ⟨input, output.shut⟩) ∧
      output.shut.received = output.content := by
  obtain ⟨flushed, hflush, hflushed, hreceived, -⟩ := h.flush
  obtain ⟨after, hclose, -, hreceived', -⟩ := hflushed.close
  have hshut : output.shut = after := by
    rw [Output.shut, hflush, hclose]
  rw [hshut]
  refine ⟨?_, hreceived'.trans hreceived⟩
  simp only [Channels.shut, hflush, hclose]

theorem Reliable.echo (bytes : Bytes) :
    (output.echo bytes).Reliable buffer ∧
      (output.echo bytes).content = output.content ++ upToZero bytes := by
  induction bytes generalizing output with
  | nil =>
    obtain ⟨-, hflushed, hcontent⟩ := h.flush_eq
    exact ⟨hflushed, by rw [upToZero, List.take_nil, List.append_nil]; exact hcontent⟩
  | cons b bytes ih =>
    obtain ⟨-, hflushed, hcontent⟩ := h.flush_eq
    obtain ⟨-, hwritten, hbyte⟩ := hflushed.emit_eq .absent [b]
    rw [hcontent] at hbyte
    rw [Output.echo, upToZero_cons]
    by_cases hb : b = 0
    · rw [if_pos hb, if_pos hb]
      exact ⟨hwritten, hbyte⟩
    · rw [if_neg hb, if_neg hb]
      obtain ⟨hlast, hall⟩ := ih hwritten
      refine ⟨hlast, ?_⟩
      rw [hall, hbyte, List.append_assoc, List.singleton_append]

end Reliable

end Output

/-- A device of which no call fails and that can be flushed and closed. -/
structure Device.Complete (device : Device) : Prop where
  reliable : device.Reliable
  flushes : device.canFlush = true
  closes : device.canClose = true

namespace Device.Complete

variable {device : Device} (h : device.Complete)
include h

theorem flush : ∃ after, (Output.direct device).flush.2 = .direct after ∧ after.Complete ∧
    after.calls.toList = device.calls.toList ++ [.flush true] := by
  have hflush : (Output.direct device).flush.2 =
      .direct (device.countFlush.record (.flush true)) := by
    simp [Output.flush, h.flushes, h.reliable.flush_eq]
  refine ⟨_, hflush, ⟨h.reliable.of_faults rfl, h.flushes, h.closes⟩, ?_⟩
  simp [record, countFlush]

theorem write (bytes : Bytes) :
    ∃ after, ((Output.direct device).write bytes).2 = .direct after ∧ after.Complete ∧
      after.calls.toList = device.calls.toList ++ [.write true bytes] := by
  have hwrite : ((Output.direct device).write bytes).2 =
      .direct (device.countWrite.record (.write true bytes)) := by
    simp [Output.write, h.reliable.write_eq]
  refine ⟨_, hwrite, ⟨h.reliable.of_faults rfl, h.flushes, h.closes⟩, ?_⟩
  simp [record, countWrite]

theorem shut : (Output.direct device).shut.calls.toList =
    device.calls.toList ++ [.flush true, .close true] := by
  obtain ⟨after, hflush, hafter, hcalls⟩ := h.flush
  have hclose : (Output.direct after).close.2 =
      .direct (after.countClose.record (.close true)) := by
    simp [Output.close, hafter.closes, hafter.reliable.close_eq]
  rw [Output.shut, hflush, hclose]
  simp [Output.calls, record, countClose, hcalls]

theorem echo (bytes : Bytes) :
    ∃ after, (Output.direct device).echo bytes = .direct after ∧ after.Complete ∧
      after.calls.toList = device.calls.toList ++ echoCalls bytes := by
  induction bytes generalizing device with
  | nil => exact h.flush
  | cons b bytes ih =>
    obtain ⟨flushed, hflush, hflushed, hcalls⟩ := h.flush
    obtain ⟨written, hwrite, hwritten, hmore⟩ := hflushed.write [b]
    rw [hcalls, List.append_assoc] at hmore
    rw [Output.echo, hflush, hwrite, echoCalls]
    by_cases hb : b = 0
    · rw [if_pos hb, if_pos hb]
      exact ⟨written, rfl, hwritten, hmore⟩
    · rw [if_neg hb, if_neg hb]
      obtain ⟨after, hecho, hafter, hall⟩ := ih hwritten
      refine ⟨after, hecho, hafter, ?_⟩
      rw [hall, hmore, List.append_assoc]
      rfl

end Device.Complete

def catSource : Bytes :=
  Bytes.join [Bytes.newline]
    [utf8 "ビルに着いた", utf8 "イワシがいっぱいだあ…ちょっとだけもらっていこうかな",
      utf8 "イワシがひっくり返った", utf8 "イワシへ泳いでいこう", utf8 "イワシがひっくり返った",
      utf8 "イワシはここに置いていこう", utf8 "ビルへ泳いでいこう", utf8 "イワシに着いた"]

def cat : Program :=
  ⟨#[{ op := .nop, label := utf8 "ビル" }, { op := .getChar }, { op := .negate },
      { op := .jumpIfPositive, label := utf8 "イワシ" }, { op := .negate }, { op := .putChar },
      { op := .jumpIfPositive, label := utf8 "ビル" }, { op := .nop, label := utf8 "イワシ" }],
    [(utf8 "ビル", 0), (utf8 "イワシ", 7)]⟩

theorem compile_cat (name : Bytes) : compile name catSource = .ok cat := by
  have hcat : compile [] catSource = .ok cat := compile_of_toOption (by decide +kernel)
  exact compile_eq_ok_iff.mpr (compile_eq_ok_iff.mp hcat)

namespace Cat

open Machine

variable {v : Cell} {input : Input} {output : Output} {buffer : Bool} {m : Machine}

theorem target_loop : cat.target (utf8 "ビル") = (0 : Nat) := by decide +kernel

theorem target_end : cat.target (utf8 "イワシ") = (7 : Nat) := by decide +kernel

theorem ends (h : At cat 7 v ⟨input, output⟩ m) (hreliable : output.Reliable buffer) :
    ∃ last, m.EndsBy [] (.returned none last) ∧ last.status = .ended ∧
      last.channels = ⟨input, output.shut⟩ := by
  have hins : cat.code[7]? = some { op := .nop, label := utf8 "イワシ" } := rfl
  let behind := (m.note { op := .nop, label := utf8 "イワシ" }).advance
  have hbehind : At cat 8 v ⟨input, output⟩ behind := (h.note _).advance
  have hpast : behind.isPastEnd = true := by
    rw [isPastEnd, hbehind.loaded, hbehind.counter]
    rfl
  let last : Machine := { behind with status := .ended, channels := ⟨input, output.shut⟩ }
  have hfinish : behind.finish none = .returned none last := by
    simp only [finish, hbehind.channels, (hreliable.shut_eq input).1]
    rfl
  have hstep : m.step = .returned none last := by
    rw [h.step_eq hins, ← hfinish]
    exact if_pos hpast
  refine ⟨last, EndsBy.once ?_ rfl, rfl, rfl⟩
  rw [hstep]
  exact Completes.through rfl

/-- From the start of the loop to the first jump: the output is flushed, and what is read is
negated. -/
theorem reads (h : At cat 0 v ⟨input, output⟩ m) (hreliable : output.Reliable buffer)
    (hthere : input ≠ .absent) {bytes : Bytes} {arrivals : List Queue}
    (hdelivers : Input.Delivers bytes arrivals input) :
    ∃ now later after next, arrivals = now ++ later ∧ after ≠ .absent ∧ m.Reaches now next ∧
      At cat 3 (-Cell.first bytes) ⟨after, output.flush.2⟩ next ∧
      (bytes ≠ [] → Input.Delivers bytes.tail later after) := by
  obtain ⟨first, hfirst, hat⟩ := h.nop rfl rfl (by decide)
  obtain ⟨now, later, after, second, harrivals, hafter, hsecond, hat, hmore⟩ :=
    hat.getChar rfl rfl (by decide) hdelivers hthere hreliable.flush_eq.1
  obtain ⟨third, hthird, hat⟩ := hat.negate rfl rfl (by decide)
  have hreaches := hfirst.trans (hsecond.trans hthird)
  rw [List.nil_append, List.append_nil] at hreaches
  exact ⟨now, later, after, third, harrivals, hafter, hreaches, hat, hmore⟩

/-- From the first jump, with a byte, to the end of the loop: the byte is written, and the loop goes
on unless it is zero. -/
theorem writes {b : UInt8} (h : At cat 3 (-Cell.ofByte b) ⟨input, output⟩ m)
    (hreliable : output.Reliable buffer) :
    ∃ next, m.Reaches [] next ∧
      At cat (if b = 0 then 7 else 0) (Cell.ofByte b) ⟨input, (output.write [b]).2⟩ next := by
  obtain ⟨first, hfirst, hat⟩ :=
    h.jumpIfPositive rfl rfl target_end (by decide) (by decide)
  rw [if_neg (Cell.not_pos_neg_ofByte b)] at hat
  obtain ⟨second, hsecond, hat⟩ := hat.negate rfl rfl (by decide)
  rw [Int64.neg_neg] at hat
  have hemit := (hreliable.emit_eq input [b]).1
  rw [← Cell.toByte_ofByte b] at hemit
  obtain ⟨third, hthird, hat⟩ := hat.putChar rfl rfl (by decide) hemit
  obtain ⟨last, hlast, hat⟩ :=
    hat.jumpIfPositive rfl rfl target_loop (by decide) (by decide)
  refine ⟨last, hfirst.trans (hsecond.trans (hthird.trans hlast)), ?_⟩
  rw [Cell.toByte_ofByte] at hat
  by_cases hb : b = 0
  · have hnot : ¬ 0 < Cell.ofByte b := fun hpos => (Cell.pos_ofByte_iff b).mp hpos hb
    rw [if_neg hnot] at hat
    rwa [if_pos hb]
  · rw [if_pos ((Cell.pos_ofByte_iff b).mpr hb)] at hat
    rwa [if_neg hb]

/-- From the first jump, at the end of the data, to the end of the program. -/
theorem leaves (h : At cat 3 (-endCell) ⟨input, output⟩ m) :
    ∃ next, m.Reaches [] next ∧ At cat 7 (-endCell) ⟨input, output⟩ next := by
  obtain ⟨next, hnext, hat⟩ := h.jumpIfPositive rfl rfl target_end (by decide) (by decide)
  rw [if_pos Cell.pos_neg_endCell] at hat
  exact ⟨next, hnext, hat⟩

/-- The loop echoes the input up to a zero or to its end, and no byte behind a zero is read. -/
theorem loops {bytes : Bytes} {arrivals : List Queue} (h : At cat 0 v ⟨input, output⟩ m)
    (hreliable : output.Reliable buffer) (hthere : input ≠ .absent)
    (hdelivers : Input.Delivers bytes arrivals input) :
    ∃ used unused last, arrivals = used ++ unused ∧ m.EndsBy used (.returned none last) ∧
      last.status = .ended ∧ last.channels.output = (output.echo bytes).shut ∧
      (0 ∈ bytes → Input.Delivers (bytes.drop (upToZero bytes).length) unused
        last.channels.input) := by
  induction bytes generalizing v input output m arrivals with
  | nil =>
    obtain ⟨now, later, after, next, rfl, -, hreaches, hat, -⟩ :=
      reads h hreliable hthere hdelivers
    obtain ⟨exit, hexit, hat⟩ := leaves hat
    obtain ⟨last, hends, hended, hchannels⟩ := ends hat hreliable.flush_eq.2.1
    have hall := hreaches.endsBy (hexit.endsBy hends)
    simp only [List.append_nil] at hall
    exact ⟨now, later, last, rfl, hall, hended, by rw [hchannels]; rfl, by simp⟩
  | cons b bytes ih =>
    obtain ⟨now, later, after, next, rfl, hafter, hreaches, hat, hmore⟩ :=
      reads h hreliable hthere hdelivers
    have hrest : Input.Delivers bytes later after := hmore (by simp)
    have hflushed := hreliable.flush_eq.2.1
    have hwritten := (hflushed.emit_eq after [b]).2.1
    obtain ⟨again, hagain, hat⟩ := writes hat hflushed
    by_cases hb : b = 0
    · rw [if_pos hb] at hat
      obtain ⟨last, hends, hended, hchannels⟩ := ends hat hwritten
      have hall := hreaches.endsBy (hagain.endsBy hends)
      simp only [List.append_nil] at hall
      refine ⟨now, later, last, rfl, hall, hended, ?_, fun _ => ?_⟩
      · rw [hchannels, Output.echo, if_pos hb]
      · rw [hchannels, upToZero_cons, if_pos hb]
        exact hrest
    · rw [if_neg hb] at hat
      obtain ⟨used, unused, last, rfl, hends, hended, hechoed, hleft⟩ :=
        ih hat hwritten hafter hrest
      have hall := hreaches.endsBy (hagain.endsBy hends)
      rw [List.nil_append] at hall
      refine ⟨now ++ used, unused, last, (List.append_assoc _ _ _).symm, hall, hended, ?_, ?_⟩
      · rw [hechoed, Output.echo, if_neg hb]
      · intro hzero
        have htail : 0 ∈ bytes := by
          rcases List.mem_cons.mp hzero with heq | hmem
          · exact absurd heq.symm hb
          · exact hmem
        rw [upToZero_cons, if_neg hb]
        exact hleft htail

theorem at_create {settings : List Setting} (h : create (some cat) settings = .ok m)
    (hcalm : ∀ count, m.traceCrash count = none) : At cat 0 m.current m.channels m := by
  obtain ⟨-, hstart⟩ := atStart_create h
  have hin : m.inBounds = true := by
    have hmemory := hstart.memory
    simp [inBounds, hstart.pointer, hmemory]
  exact ⟨hstart.loaded, hstart.counter, status_create h, hin, rfl, rfl, hcalm⟩

end Cat

/-- The source compiles, and with any input and output a machine comes about for the program. On an
input that delivers some bytes and then the end of its data, at once or with waiting in between,
with an output of which no call fails and with a trace that does not crash, a run ends without an
error, and the output has received the bytes up to the first zero, or all of them. A device that can
be flushed and closed is flushed before each byte that is read, and before the end of the data if
that is reached, and once more when it is closed. -/
theorem cat_echoes (name : Bytes) :
    compile name catSource = .ok cat ∧
      (∀ input output, ∃ m, Machine.create (some cat) [.input input, .output output] = .ok m ∧
        m.channels = ⟨input, output⟩ ∧ m.trace = none) ∧
      ∀ (settings : List Machine.Setting) (m : Machine),
        Machine.create (some cat) settings = .ok m → (∀ count, m.traceCrash count = none) →
        ∀ (bytes : Bytes) (arrivals : List Queue),
          m.channels.input ≠ .absent → Input.Delivers bytes arrivals m.channels.input →
          ∀ buffer : Bool, m.channels.output.Reliable buffer →
            ∃ (used unused : List Queue) (last : Machine), arrivals = used ++ unused ∧
              m.RunsTo used (.returned none last) ∧
              (arrivals = [] → ∃ fuel, Machine.run fuel m = .settled (.returned none last)) ∧
              last.status = .ended ∧
              last.channels.output.received = m.channels.output.content ++ upToZero bytes ∧
              (0 ∈ bytes → Input.Delivers (bytes.drop (upToZero bytes).length) unused
                last.channels.input) ∧
              ∀ device, m.channels.output = .direct device → device.canFlush = true →
                device.canClose = true →
                let added := echoCalls bytes ++ [.flush true, .close true]
                last.channels.output.calls.toList = device.calls.toList ++ added ∧
                  added.count (.flush true) = readCount bytes + 1 ∧
                  added.count (.close true) = 1 := by
  refine ⟨compile_cat name, ?_, ?_⟩
  · intro input output
    have hfault : cat.fault? = none := by decide +kernel
    refine ⟨{ Machine.start cat with channels := ⟨input, output⟩ }, ?_, rfl, rfl⟩
    simp only [Machine.create, hfault]
    rfl
  · intro settings m hcreate hcalm bytes arrivals hthere hdelivers buffer hreliable
    obtain ⟨used, unused, last, harrivals, hends, hended, hechoed, hleft⟩ :=
      Cat.loops (Cat.at_create hcreate hcalm) hreliable hthere hdelivers
    have hruns := Machine.runsTo_iff_endsBy.mpr hends
    obtain ⟨hafter, hcontent⟩ := hreliable.echo bytes
    refine ⟨used, unused, last, harrivals, hruns, ?_, hended, ?_, hleft, ?_⟩
    · rintro rfl
      obtain ⟨rfl, -⟩ := List.append_eq_nil_iff.mp harrivals.symm
      exact hruns.exists_run
    · rw [hechoed, (hafter.shut_eq .absent).2, hcontent]
    · intro device hdevice hflushes hcloses added
      have hcomplete : device.Complete := by
        rw [hdevice] at hreliable
        cases hreliable with
        | direct h => exact ⟨h, hflushes, hcloses⟩
      obtain ⟨final, hecho, hfinal, hcalls⟩ := hcomplete.echo bytes
      refine ⟨?_, ?_, ?_⟩
      · rw [hechoed, hdevice, hecho, hfinal.shut, hcalls, List.append_assoc]
      · simp [added, count_flush_echoCalls]
      · simp [added, count_close_echoCalls]

/-- Two bytes arrive while the program waits, one of them with its highest bit set, and then two
more of which the first is zero. The last of them is not read, and not echoed. -/
theorem cat_echoes_upToZero :
    let device : Device := { canFlush := true, canClose := true }
    let arrivals : List Queue := [⟨[72, 200], false⟩, ⟨[0, 73], true⟩]
    ∃ m used unused last,
      Machine.create (some cat) [.input (.queue {}), .output (.direct device)] = .ok m ∧
        arrivals = used ++ unused ∧ m.RunsTo used (.returned none last) ∧
        last.channels.output.received = [72, 200, 0] ∧
        last.channels.output.calls.toList.count (.flush true) = 4 ∧
        last.channels.output.calls.toList.count (.close true) = 1 ∧
        Input.Delivers [73] unused last.channels.input := by
  intro device arrivals
  obtain ⟨-, hcreates, hechoes⟩ := cat_echoes []
  obtain ⟨m, hcreate, hchannels, htrace⟩ := hcreates (.queue {}) (.direct device)
  have hcalm : ∀ count, m.traceCrash count = none := by simp [Machine.traceCrash, htrace]
  have hthere : m.channels.input ≠ .absent := by simp [hchannels]
  have hdelivers : Input.Delivers [72, 200, 0, 73] arrivals m.channels.input := by
    rw [hchannels]
    apply Input.Delivers.waits rfl
    apply Input.Delivers.byte rfl
    apply Input.Delivers.byte rfl
    apply Input.Delivers.waits rfl
    exact Input.delivers_queue [0, 73]
  have hreliable : m.channels.output.Reliable false := by
    rw [hchannels]
    exact Output.Reliable.direct (Device.reliable_of_faults rfl)
  obtain ⟨used, unused, last, harrivals, hruns, -, -, hreceived, hleft, hcalls⟩ :=
    hechoes _ m hcreate hcalm _ arrivals hthere hdelivers false hreliable
  obtain ⟨hadded, -, -⟩ := hcalls device (by rw [hchannels]) rfl rfl
  rw [hchannels] at hreceived
  refine ⟨m, used, unused, last, hcreate, harrivals, hruns, hreceived, ?_, ?_, hleft (by simp)⟩
  · rw [hadded]
    decide +kernel
  · rw [hadded]
    decide +kernel

end Sardine
