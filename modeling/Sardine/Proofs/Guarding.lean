import Sardine.Listing
import Sardine.Machine.Dump
import Sardine.Proofs.Calm
import Sardine.Proofs.Contents

/-! Writing under a guard.
A listing and a dump are written piece by piece, and nobody looks at what comes of a single write.
The guard sees to it that nothing is written behind the first failure, and that the failure is
reported in the end. -/
namespace Sardine

namespace Device

/-- Counted from here, the writes fail from the `k`-th on, each with an error of its own. -/
structure FailsFrom (device : Device) (k : Nat) : Prop where
  takes : ∀ i < k, device.faults.write (device.writes + i) = none
  fails : ∀ i, k ≤ i → ∃ message, device.faults.write (device.writes + i) = some (.error message)

def took (texts : List Bytes) (device : Device) : Device :=
  texts.foldl (fun device text => device.countWrite.record (.write true text)) device

@[simp] theorem faults_took (texts : List Bytes) (device : Device) :
    (device.took texts).faults = device.faults := by
  induction texts generalizing device with
  | nil => rfl
  | cons text texts ih => exact ih _

@[simp] theorem writes_took (texts : List Bytes) (device : Device) :
    (device.took texts).writes = device.writes + texts.length := by
  induction texts generalizing device with
  | nil => rfl
  | cons text texts ih =>
    have hrest := ih (device.countWrite.record (.write true text))
    rwa [record, countWrite, Nat.add_assoc, Nat.add_comm 1] at hrest

@[simp] theorem calls_took (texts : List Bytes) (device : Device) :
    (device.took texts).calls.toList = device.calls.toList ++ texts.map (Call.write true) := by
  induction texts generalizing device with
  | nil => simp [took]
  | cons text texts ih =>
    have hrest := ih (device.countWrite.record (.write true text))
    rw [record, Array.toList_push, List.append_assoc] at hrest
    exact hrest

theorem write_of_takes {device : Device} (h : device.faults.write device.writes = none)
    (text : Bytes) : device.write text = (.done text.length, device.took [text]) := by
  rw [Device.write, h]
  rfl

theorem write_of_fails {device : Device} {message : Bytes}
    (h : device.faults.write device.writes = some (.error message)) (text : Bytes) :
    device.write text =
      (.failed (min (device.faults.short device.writes) text.length) ⟨.sink message, []⟩,
        device.countWrite.record (.write false text)) := by
  rw [Device.write, h]

end Device

namespace Guarded

theorem writeAll_append (pieces more : List Bytes) (g : Guarded) :
    writeAll (pieces ++ more) g = andThen (writeAll pieces g) (writeAll more) := by
  induction pieces generalizing g with
  | nil => cases hfailure : g.failure <;> simp [writeAll, hfailure, andThen]
  | cons piece pieces ih =>
    rw [List.cons_append, writeAll, writeAll]
    obtain ⟨result, after⟩ := g.write piece
    cases result with
    | done n => exact ih after
    | failed n e => exact ih after
    | crashed text => rfl

/-- What comes back from a guard when the device under it fails with a message. -/
def sinkError (message : Bytes) : Error := Error.wrap note ⟨.sink message, []⟩

theorem writeAll_of_takes {device : Device} {texts : List Bytes}
    (h : ∀ i < texts.length, device.faults.write (device.writes + i) = none) :
    writeAll texts { target := .direct device } =
      (.ok (), { target := .direct (device.took texts) }) := by
  induction texts generalizing device with
  | nil => rfl
  | cons text texts ih =>
    have hfirst := Device.write_of_takes (h 0 (Nat.succ_pos _)) text
    have hrest : ∀ i < texts.length,
        (device.took [text]).faults.write ((device.took [text]).writes + i) = none := fun i hi => by
      have hlater := h (i + 1) (Nat.succ_lt_succ hi)
      rwa [Nat.add_comm i 1, ← Nat.add_assoc] at hlater
    simp only [writeAll, write, Output.write, hfirst]
    exact ih hrest

/-- A device that fails in between: nothing is written behind the text with which it fails. -/
theorem writeAll_of_fails {device : Device} {front : List Bytes} {message : Bytes}
    (htakes : ∀ i < front.length, device.faults.write (device.writes + i) = none)
    (hfails : device.faults.write (device.writes + front.length) = some (.error message))
    (text : Bytes) (back : List Bytes) :
    ∃ after, after.calls.toList =
        device.calls.toList ++ (front.map (.write true) ++ [.write false text]) ∧
      writeAll (front ++ text :: back) { target := .direct device } =
        (.failed (sinkError message),
          { target := .direct after, failure := some (sinkError message) }) := by
  have hnext : (device.took front).faults.write (device.took front).writes =
      some (.error message) := by
    rw [Device.faults_took, Device.writes_took, hfails]
  refine ⟨(device.took front).countWrite.record (.write false text), ?_, ?_⟩
  · simp [Device.record, Device.countWrite]
  · rw [writeAll_append, writeAll_of_takes htakes]
    simp only [andThen, writeAll, write, Output.write, Device.write_of_fails hnext text]
    exact writeAll_of_failure rfl back

theorem writeAll_of_reliable {buffer : Bool} {output : Output} (h : output.Reliable buffer)
    (pieces : List Bytes) :
    ∃ after, writeAll pieces { target := output } = (.ok (), { target := after }) ∧
      after.Reliable buffer ∧ after.content = output.content ++ pieces.flatten := by
  induction pieces generalizing output with
  | nil => exact ⟨output, rfl, h, by simp⟩
  | cons piece pieces ih =>
    obtain ⟨n, next, hwrite, hnext, hcontent⟩ := h.write piece
    obtain ⟨after, hall, hafter, hrest⟩ := ih hnext
    refine ⟨after, ?_, hafter, by rw [hrest, hcontent, List.flatten_cons, List.append_assoc]⟩
    simp only [writeAll, write, hwrite]
    exact hall

/-- The calls on a device that takes `k` texts: the next one, if there is one, is tried and
fails. -/
def callsUpTo (k : Nat) (texts : List Bytes) : List Call :=
  (texts.take k).map (.write true) ++ ((texts.drop k).take 1).map (.write false)

theorem callsUpTo_of_le {k : Nat} {texts : List Bytes} (h : texts.length ≤ k) :
    callsUpTo k texts = texts.map (.write true) := by
  simp [callsUpTo, List.take_of_length_le h, List.drop_eq_nil_of_le h]

theorem callsUpTo_length (front : List Bytes) (text : Bytes) (back : List Bytes) :
    callsUpTo front.length (front ++ text :: back) =
      front.map (.write true) ++ [.write false text] := by
  simp [callsUpTo]

end Guarded

namespace Program

variable {program : Program}

theorem writeInstruction_eq {pc : Nat} {ins : Instruction} (h : program.code[pc]? = some ins)
    (g : Guarded) :
    program.writeInstruction pc (.guarded g) =
      Guarded.writeAll (program.instructionPieces pc ins) g := by
  show program.writeInstruction (.ofNat pc) (.guarded g) = _
  simp only [writeInstruction, h, Writer.guard_guarded]

/-- The guard that is asked at the end of a line is the one under which all pieces are written. -/
theorem writeLines_eq {entries : List (Instruction × Nat)}
    (h : ∀ entry ∈ entries, program.code[entry.2]? = some entry.1) {g : Guarded}
    (hg : g.failure = none) :
    program.writeLines (entries.map Prod.snd) g =
      Guarded.writeAll (entries.flatMap fun entry => program.linePieces entry.2 entry.1) g := by
  induction entries generalizing g with
  | nil => simp [writeLines, Guarded.writeAll, hg]
  | cons entry entries ih =>
    obtain ⟨hentry, hentries⟩ := List.forall_mem_cons.mp h
    have hline : program.linePieces entry.2 entry.1 = [Decimal.address entry.2 ++ utf8 "\t"] ++
        (program.instructionPieces entry.2 entry.1 ++ [[Bytes.newline]]) := rfl
    rw [List.map_cons, writeLines, List.flatMap_cons, hline, List.append_assoc, List.append_assoc,
      Guarded.writeAll_append]
    refine congrArg _ (funext fun g₁ => ?_)
    rw [writeInstruction_eq hentry, Guarded.writeAll_append]
    refine congrArg _ (funext fun g₂ => ?_)
    rw [Guarded.writeAll_append]
    refine congrArg _ (funext fun g₃ => ?_)
    split
    · rename_i e he
      rw [Guarded.writeAll_of_failure he]
    · rename_i hnone
      exact ih hentries hnone

theorem getElem?_of_mem_zipIdx {entry : Instruction × Nat}
    (h : entry ∈ program.code.toList.zipIdx) : program.code[entry.2]? = some entry.1 := by
  simpa using List.mem_zipIdx_iff_getElem?.mp h

theorem writeListing_eq {writer : Writer} (h : writer.guard.failure = none) :
    program.writeListing writer = Guarded.writeAll program.listingPieces writer.guard := by
  have haddresses : List.range program.size = program.code.toList.zipIdx.map Prod.snd := by
    rw [List.zipIdx_map_snd, List.range_eq_range', size, Array.length_toList]
  rw [writeListing, haddresses, writeLines_eq (fun _ => getElem?_of_mem_zipIdx) h, listingPieces]

end Program

def Writer.under : Nat → Output → Writer
  | 0, target => .bare target
  | n + 1, target => .guarded (under n target).guard

@[simp] theorem Writer.guard_under (n : Nat) (target : Output) :
    (Writer.under n target).guard = { target } := by
  induction n with
  | zero => rfl
  | succ n ih => exact ih

/-- What is written piece by piece: the listing of a program or the dump of a machine. -/
inductive Document
  | listing (program : Program)
  | dump (machine : Machine)

namespace Document

def write : Document → Writer → Outcome Unit × Guarded
  | listing program, writer => program.writeListing writer
  | dump machine, writer => machine.writeDump writer

def pieces : Document → List Bytes
  | listing program => program.listingPieces
  | dump machine => machine.dumpPieces

theorem write_eq (document : Document) {writer : Writer} (h : writer.guard.failure = none) :
    document.write writer = Guarded.writeAll document.pieces writer.guard := by
  cases document with
  | listing program => exact Program.writeListing_eq h
  | dump machine => rfl

/-- Where no call on a device fails, all of it is written, however many guards there are. -/
theorem write_of_reliable (document : Document) {buffer : Bool} {output : Output}
    (h : output.Reliable buffer) (guards : Nat) :
    ∃ after : Output, document.write (.under guards output) = (.ok (), { target := after }) ∧
      after.content = output.content ++ document.pieces.flatten := by
  rw [document.write_eq (by rw [Writer.guard_under]), Writer.guard_under]
  obtain ⟨after, hall, -, hcontent⟩ := Guarded.writeAll_of_reliable h document.pieces
  exact ⟨after, hall, hcontent⟩

end Document

/-- A listing and a dump stop at the first write that fails, be it the first or the last of a line
or one in between. On a device that takes `k` writes the same texts are written as on one that never
fails, up to the one behind these `k`: it is the last, and its error comes back. However many guards
there are, the guard keeps that error and lets nothing through any more. -/
theorem writing_stops_at_failure (document : Document) (guards : Nat) {steady sink : Device}
    {k : Nat} (hsteady : steady.Reliable) (hsink : sink.FailsFrom k) {message : Bytes}
    (hmessage : sink.faults.write (sink.writes + k) = some (.error message)) :
    let error : Error := Error.wrap (utf8 "write failed") ⟨.sink message, []⟩
    error.message = utf8 "write failed: " ++ message ∧
    ∃ whole part : Device,
      document.write (.under guards (.direct steady)) = (.ok (), { target := .direct whole }) ∧
      whole.calls.toList = steady.calls.toList ++ document.pieces.map (.write true) ∧
      part.calls.toList = sink.calls.toList ++ Guarded.callsUpTo k document.pieces ∧
      (document.pieces.length ≤ k →
        document.write (.under guards (.direct sink)) = (.ok (), { target := .direct part })) ∧
      (k < document.pieces.length →
        let guard : Guarded := { target := .direct part, failure := some error }
        document.write (.under guards (.direct sink)) = (.failed error, guard) ∧
          ∀ bytes, guard.write bytes = (.failed 0 error, guard)) := by
  intro error
  refine ⟨rfl, ?_⟩
  have hunder : ∀ device : Device, document.write (.under guards (.direct device)) =
      Guarded.writeAll document.pieces { target := .direct device } := by
    intro device
    rw [document.write_eq (by rw [Writer.guard_under]), Writer.guard_under]
  have hwhole : Guarded.writeAll document.pieces { target := .direct steady } = _ :=
    Guarded.writeAll_of_takes fun i _ => hsteady.writes _
  rw [hunder, hunder, hwhole]
  rcases Nat.lt_or_ge k document.pieces.length with hlt | hge
  · obtain ⟨front, text, back, hsplit, rfl⟩ : ∃ front text back,
        document.pieces = front ++ text :: back ∧ front.length = k := by
      refine ⟨document.pieces.take k, document.pieces[k], document.pieces.drop (k + 1), ?_,
        List.length_take_of_le (Nat.le_of_lt hlt)⟩
      rw [← List.drop_eq_getElem_cons hlt, List.take_append_drop]
    obtain ⟨part, hcalls, hpart⟩ := Guarded.writeAll_of_fails hsink.takes hmessage text back
    refine ⟨_, part, rfl, Device.calls_took .., ?_, fun hle => absurd hlt (Nat.not_lt_of_le hle),
      fun _ => ⟨?_, Guarded.write_of_failure rfl⟩⟩
    · rw [hsplit, hcalls, Guarded.callsUpTo_length]
    · rw [hsplit, hpart]
      rfl
  · have hpart := Guarded.writeAll_of_takes fun i hi => hsink.takes i (Nat.lt_of_lt_of_le hi hge)
    refine ⟨_, sink.took document.pieces, rfl, Device.calls_took .., ?_, fun _ => hpart,
      fun hlt => absurd hlt (Nat.not_lt_of_le hge)⟩
    rw [Guarded.callsUpTo_of_le hge, Device.calls_took]

/-- The fourth write of a listing, which shows the label of the first line, fails. Further writes
would fail in another way. -/
theorem writing_stops_at_failure_label :
    let program : Program :=
      ⟨#[{ op := .nop, label := utf8 "港" }, { op := .increment }], [(utf8 "港", 0)]⟩
    let sink : Device :=
      { faults :=
          { write := fun number =>
              if number < 3 then none
              else some (.error (utf8 (if number = 3 then "broken" else "gone")))
            short := fun _ => 1 } }
    let error : Error := ⟨.sink (utf8 "broken"), [utf8 "write failed"]⟩
    Device.Reliable {} ∧ sink.FailsFrom 3 ∧ error.message = utf8 "write failed: broken" ∧
      ∃ part : Device,
        program.writeListing (.guarded { target := .direct sink }) =
          (.failed error, { target := .direct part, failure := some error }) ∧
        part.calls.toList = [.write true (utf8 "     0\t"), .write true (utf8 "NOP"),
          .write true (utf8 "\t:"), .write false (utf8 "港")] := by
  intro program sink error
  have hsteady : Device.Reliable {} := Device.reliable_of_faults rfl
  have hsink : sink.FailsFrom 3 := by
    constructor
    · intro i hi
      simp [sink, hi]
    · intro i hi
      exact ⟨utf8 (if i = 3 then "broken" else "gone"), by simp [sink, Nat.not_lt_of_le hi]⟩
  have hbroken : sink.faults.write (sink.writes + 3) = some (.error (utf8 "broken")) := rfl
  obtain ⟨hmessage, -, part, -, -, hcalls, -, hfails⟩ :=
    writing_stops_at_failure (.listing program) 1 hsteady hsink hbroken
  have hpieces : Document.pieces (.listing program) = [utf8 "     0\t", utf8 "NOP", utf8 "\t:",
      utf8 "港", utf8 "\n", utf8 "     1\t", utf8 "INC", utf8 "\n"] := by decide +kernel
  rw [hpieces] at hcalls hfails
  exact ⟨hsteady, hsink, by decide +kernel, part, (hfails (by decide)).1, hcalls⟩

end Sardine
