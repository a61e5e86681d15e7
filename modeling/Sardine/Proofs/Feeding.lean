import Sardine.Directory
import Sardine.Input.Feed
import Sardine.Proofs.Calm
import Sardine.Proofs.Ledger

/-! What an invocation feeds to its program.
The files come first, in the order of their names, and then what the reader delivers up to its first
stop. A reader that ends at a Ctrl-D delivers the bytes before it, and a stop that comes with it or
after it is not noticed. However the reader parts its data, no byte is lost or added. -/
namespace Sardine

namespace Script

/-- The bytes up to the first stop, with those that come along with it. -/
def delivered : Script → Bytes
  | [] => []
  | .crash _ :: rest => delivered rest
  | .data bytes none :: rest => bytes ++ delivered rest
  | .data bytes (some _) :: _ => bytes

/-- The first stop. Without any, a script stops at the end of its data. -/
def firstStop : Script → Stop
  | [] => .endOfData
  | .crash _ :: rest => firstStop rest
  | .data _ none :: rest => firstStop rest
  | .data _ (some stop) :: _ => stop

variable {n : Nat} {script rest : Script} {bytes : Bytes}

theorem delivered_of_data (h : script.read n = (.data bytes none, rest)) :
    script.delivered = bytes ++ rest.delivered ∧ script.firstStop = rest.firstStop := by
  match script with
  | [] => simp at h
  | .crash text :: tail => simp [read] at h
  | .data all stop :: tail =>
    simp only [read] at h
    split at h
    · obtain ⟨hread, rfl⟩ := Prod.mk.inj h
      obtain ⟨rfl, -⟩ := Event.data.inj hread
      -- The reading has taken a part of the event; its stop is left for the last part.
      cases stop with
      | none =>
        have hall : all ++ delivered tail =
            all.take n ++ (all.drop n ++ delivered tail) := by
          rw [← List.append_assoc, List.take_append_drop]
        exact ⟨hall, rfl⟩
      | some stop => exact ⟨(List.take_append_drop n all).symm, rfl⟩
    · obtain ⟨hread, rfl⟩ := Prod.mk.inj h
      obtain ⟨rfl, rfl⟩ := Event.data.inj hread
      exact ⟨rfl, rfl⟩

theorem delivered_of_stop {stop : Stop} (h : script.read n = (.data bytes (some stop), rest)) :
    script.delivered = bytes ∧ script.firstStop = stop := by
  match script with
  | [] =>
    simp only [read_nil, Prod.mk.injEq, Event.data.injEq, Option.some.injEq] at h
    exact h.1
  | .crash text :: tail => simp [read] at h
  | .data all last :: tail =>
    simp only [read] at h
    split at h
    · simp at h
    · obtain ⟨hread, -⟩ := Prod.mk.inj h
      obtain ⟨rfl, rfl⟩ := Event.data.inj hread
      exact ⟨rfl, rfl⟩

/-- What a reading brings is the beginning of what is delivered. -/
theorem exists_delivered {stop : Option Stop} (h : script.read n = (.data bytes stop, rest)) :
    ∃ more, script.delivered = bytes ++ more := by
  cases stop with
  | none => exact ⟨rest.delivered, (delivered_of_data h).1⟩
  | some stop => exact ⟨[], by rw [(delivered_of_stop h).1, List.append_nil]⟩

end Script

def beforeCutoff (bytes : Bytes) : Bytes := bytes.takeWhile (· ≠ endOfTransmission)

section BeforeCutoff

variable {bytes : Bytes}

theorem beforeCutoff_of_not_mem (h : endOfTransmission ∉ bytes) (more : Bytes) :
    beforeCutoff (bytes ++ more) = bytes ++ beforeCutoff more := by
  apply List.takeWhile_append_of_pos
  intro b hb
  exact decide_eq_true fun heq => h (heq ▸ hb)

theorem beforeCutoff_of_mem (h : endOfTransmission ∈ bytes) (more : Bytes) :
    beforeCutoff (bytes ++ more) = beforeCutoff bytes := by
  induction bytes with
  | nil => simp at h
  | cons b bytes ih =>
    unfold beforeCutoff at ih ⊢
    by_cases hb : b = endOfTransmission
    · simp [hb]
    · have hrest : endOfTransmission ∈ bytes := by
        rcases List.mem_cons.mp h with heq | hmem
        · exact absurd heq.symm hb
        · exact hmem
      rw [List.cons_append, List.takeWhile_cons, List.takeWhile_cons, ih hrest]

end BeforeCutoff

inductive Cutoff.Reads (n : Nat) (c : Cutoff) : Reading × Cutoff → Prop
  | spent (hcut : c.isCut = true) : Reads n c (.data [] (some .endOfData), c)
  | crashed (hcut : c.isCut = false) {text : Bytes} {source : Script}
      (h : c.source.read n = (.crash text, source)) : Reads n c (.crash text, { c with source })
  | found (hcut : c.isCut = false) {bytes : Bytes} {stop : Option Stop} {source : Script}
      (h : c.source.read n = (.data bytes stop, source)) (hmem : endOfTransmission ∈ bytes) :
      Reads n c (.data (beforeCutoff bytes) (some .endOfData), { source, isCut := true })
  | passed (hcut : c.isCut = false) {bytes : Bytes} {stop : Option Stop} {source : Script}
      (h : c.source.read n = (.data bytes stop, source)) (hmem : endOfTransmission ∉ bytes) :
      Reads n c (.data bytes stop, { c with source })

theorem Cutoff.reads (n : Nat) (c : Cutoff) : c.Reads n (c.read n) := by
  unfold Cutoff.read
  split
  · rename_i hcut
    exact Reads.spent hcut
  · rename_i hcut
    have hcut : c.isCut = false := by simpa using hcut
    split
    · rename_i hread
      exact Reads.crashed hcut hread
    · rename_i hread
      split
      · rename_i hmem
        exact Reads.found hcut hread (by simpa using hmem)
      · rename_i hmem
        exact Reads.passed hcut hread (by simpa using hmem)

namespace Reader

def source : Reader → Script
  | script source => source
  | cutoff c => c.source

def delivered : Reader → Bytes
  | script source => source.delivered
  | cutoff c => if c.isCut then [] else beforeCutoff c.source.delivered

def firstStop : Reader → Stop
  | script source => source.firstStop
  | cutoff c =>
    if c.isCut ∨ endOfTransmission ∈ c.source.delivered then .endOfData else c.source.firstStop

variable {n : Nat} {r rest : Reader} {bytes : Bytes}

theorem delivered_of_data (h : r.read n = (.data bytes none, rest)) :
    r.delivered = bytes ++ rest.delivered ∧ r.firstStop = rest.firstStop := by
  cases r with
  | script source =>
    obtain ⟨hread, rfl⟩ := Prod.mk.inj h
    exact Script.delivered_of_data (Prod.ext hread rfl)
  | cutoff c =>
    have hreads := c.reads n
    rw [read] at h
    generalize c.read n = result at h hreads
    cases hreads with
    | passed hcut hread hnot =>
      obtain ⟨hdata, rfl⟩ := Prod.mk.inj h
      obtain ⟨rfl, rfl⟩ := Event.data.inj hdata
      obtain ⟨hbytes, hstop⟩ := Script.delivered_of_data hread
      simp [delivered, firstStop, hcut, hbytes, hstop, hnot, beforeCutoff_of_not_mem hnot]
    | _ => simp at h

theorem delivered_of_stop {stop : Stop} (h : r.read n = (.data bytes (some stop), rest)) :
    r.delivered = bytes ∧ r.firstStop = stop := by
  cases r with
  | script source =>
    obtain ⟨hread, -⟩ := Prod.mk.inj h
    exact Script.delivered_of_stop (Prod.ext hread rfl)
  | cutoff c =>
    have hreads := c.reads n
    rw [read] at h
    generalize c.read n = result at h hreads
    cases hreads with
    | crashed => simp at h
    | spent hcut =>
      obtain ⟨rfl, hstop⟩ := Event.data.inj (Prod.mk.inj h).1
      simpa [delivered, firstStop, hcut] using hstop
    -- The Ctrl-D is in this reading: what is behind it, here or later, does not count.
    | found hcut hread hmem =>
      obtain ⟨rfl, hstop⟩ := Event.data.inj (Prod.mk.inj h).1
      obtain ⟨more, hmore⟩ := Script.exists_delivered hread
      simpa [delivered, firstStop, hcut, hmore, hmem, beforeCutoff_of_mem hmem] using hstop
    | passed hcut hread hnot =>
      obtain ⟨rfl, rfl⟩ := Event.data.inj (Prod.mk.inj h).1
      obtain ⟨rfl, rfl⟩ := Script.delivered_of_stop hread
      have hall := beforeCutoff_of_not_mem hnot []
      rw [List.append_nil] at hall
      simpa [delivered, firstStop, hcut, hnot, beforeCutoff] using hall

theorem calm_of_read {reading : Reading} (hcalm : r.source.Calm)
    (h : r.read n = (reading, rest)) :
    (∀ text, reading ≠ .crash text) ∧ rest.source.Calm := by
  cases r with
  | script source =>
    obtain ⟨rfl, rfl⟩ := Prod.mk.inj h
    exact Script.Calm.read hcalm n
  | cutoff c =>
    have hcalm : c.source.Calm := hcalm
    have hsource := hcalm.read n
    have hreads := c.reads n
    rw [read] at h
    generalize c.read n = result at h hreads
    obtain ⟨rfl, rfl⟩ := Prod.mk.inj h
    cases hreads with
    | spent hcut => exact ⟨by simp, hcalm⟩
    | crashed hcut hread => exact absurd (congrArg Prod.fst hread) (hsource.1 _)
    | found hcut hread | passed hcut hread =>
      rw [hread] at hsource
      exact ⟨by simp, hsource.2⟩

end Reader

namespace Queue

def feedOutcome : Stop → Outcome Unit
  | .endOfData => .ok ()
  | stop => .failed (stop.toError.wrap feedNote)

theorem endFeed_eq {q : Queue} (hopen : q.closed = false) (stop : Stop) :
    q.endFeed stop = (feedOutcome stop, { q with closed := true }) := by
  cases stop <;> simp [endFeed, close_of_open hopen, feedOutcome]

/-- A feed appends what the reader delivers up to its first stop. -/
theorem feed_eq {q : Queue} (hopen : q.closed = false) {r : Reader} (hcalm : r.source.Calm) :
    q.feed r = (feedOutcome r.firstStop, ⟨q.held ++ r.delivered, true⟩) := by
  fun_induction Queue.feed q r with
  | case1 q r text rest hread =>
    exact absurd rfl ((Reader.calm_of_read hcalm hread).1 text)
  | case2 q r bytes rest hread hempty ih =>
    obtain ⟨hbytes, hstop⟩ := Reader.delivered_of_data hread
    obtain rfl : bytes = [] := List.isEmpty_iff.mp hempty
    rw [ih hopen (Reader.calm_of_read hcalm hread).2, hbytes, hstop]
    rfl
  | case3 q r bytes rest hread hne e hwrite => simp [write_of_open hopen] at hwrite
  | case4 q r bytes rest hread hne after hwrite ih =>
    obtain ⟨hbytes, hstop⟩ := Reader.delivered_of_data hread
    rw [write_of_open hopen] at hwrite
    obtain rfl := Except.ok.inj hwrite
    rw [ih hopen (Reader.calm_of_read hcalm hread).2, hbytes, hstop, List.append_assoc]
  | case5 q r bytes stop rest hread hempty =>
    obtain ⟨hbytes, hstop⟩ := Reader.delivered_of_stop hread
    obtain rfl : bytes = [] := List.isEmpty_iff.mp hempty
    rw [endFeed_eq hopen, hbytes, hstop, List.append_nil]
  | case6 q r bytes stop rest hread hne e hwrite => simp [write_of_open hopen] at hwrite
  | case7 q r bytes stop rest hread hne after hwrite =>
    obtain ⟨hbytes, hstop⟩ := Reader.delivered_of_stop hread
    rw [write_of_open hopen] at hwrite
    obtain rfl := Except.ok.inj hwrite
    have hstill : Queue.closed { q with held := q.held ++ bytes } = false := hopen
    rw [endFeed_eq hstill, hbytes, hstop]

def contribution (files : Files) (name : Bytes) : Bytes :=
  (files name).toOption.getD []

def complaint? (files : Files) (name : Bytes) : Option Bytes :=
  match files name with
  | .ok _ => none
  | .error fault => some (if fault.whileReading then remark name fault.message else fault.message)

theorem feedFile_eq (files : Files) (name : Bytes) {q : Queue} (hopen : q.closed = false) :
    feedFile files name q =
      ((complaint? files name).toList, { q with held := q.held ++ contribution files name }) := by
  unfold feedFile complaint? contribution
  cases files name with
  | error fault => simp [Except.toOption]
  | ok content =>
    cases content with
    | nil => simp [Except.toOption]
    | cons b content => simp [Except.toOption, write_of_open hopen]

theorem feedFiles_eq (files : Files) (names : List Bytes) {q : Queue}
    (hopen : q.closed = false) :
    feedFiles files names q =
      (names.filterMap (complaint? files),
        { q with held := q.held ++ names.flatMap (contribution files) }) := by
  induction names generalizing q with
  | nil => simp [feedFiles]
  | cons name names ih =>
    have hstill : Queue.closed { q with held := q.held ++ contribution files name } = false := hopen
    rw [feedFiles, feedFile_eq files name hopen]
    simp only [ih hstill, List.flatMap_cons, List.append_assoc]
    cases hcomplaint : complaint? files name <;> simp [hcomplaint]

theorem feedAll_eq (files : Files) (names : List Bytes) {q : Queue} (hopen : q.closed = false)
    {r : Reader} (hcalm : r.source.Calm) :
    feedAll files names r q =
      (.ok (names.filterMap (complaint? files) ++
          if r.firstStop ≠ .endOfData then
            [remark (utf8 "stdin") (r.firstStop.toError.wrap feedNote).message]
          else []),
        ⟨q.held ++ names.flatMap (contribution files) ++ r.delivered, true⟩) := by
  have hstill :
      Queue.closed { q with held := q.held ++ names.flatMap (contribution files) } = false := hopen
  simp only [feedAll, feedFiles_eq files names hopen, feed_eq hstill hcalm]
  cases r.firstStop <;> simp [feedOutcome]

end Queue

/-- Files by name, and then a script without a crash, with or without an end at Ctrl-D, all into an
open queue of which nothing is taken meanwhile. The queue is closed and holds what it held before,
the contents of the files that can be had, in the order of their names, and what the script delivers
up to its first stop, cut before the first Ctrl-D if it ends there. There is one remark for each
name that gives no content, and one more if the first stop is an error and no Ctrl-D has hidden
it. -/
theorem feed_files_then_reader (files : Files) (names : List Bytes) {script : Script}
    (hcalm : script.Calm) {q : Queue} (hopen : q.closed = false) (cut : Bool) :
    let reader : Reader := if cut then .cutoff { source := script } else .script script
    let bytes : Bytes := if cut then beforeCutoff script.delivered else script.delivered
    let report : List Bytes :=
      if script.firstStop ≠ .endOfData ∧ (cut = true → endOfTransmission ∉ script.delivered) then
        [utf8 "stdin: " ++ (utf8 "input feed: " ++ script.firstStop.toError.message)]
      else []
    Queue.feedAll files names reader q =
      (.ok (names.filterMap (Queue.complaint? files) ++ report),
        ⟨q.held ++ names.flatMap (Queue.contribution files) ++ bytes, true⟩) := by
  intro reader bytes report
  have hcalm' : reader.source.Calm := by
    cases cut <;> exact hcalm
  have hbytes : reader.delivered = bytes := by
    cases cut <;> rfl
  rw [Queue.feedAll_eq files names hopen hcalm', hbytes]
  by_cases hhidden : cut = true ∧ endOfTransmission ∈ script.delivered
  · have hstop : reader.firstStop = .endOfData := by
      simp [reader, Reader.firstStop, hhidden]
    have hreport : report = [] := if_neg fun hfails => hfails.2 hhidden.1 hhidden.2
    simp [hstop, hreport]
  · have hstop : reader.firstStop = script.firstStop := by
      cases cut with
      | false => rfl
      | true =>
        have hnot : endOfTransmission ∉ script.delivered := fun hmem => hhidden ⟨rfl, hmem⟩
        simp [reader, Reader.firstStop, hnot]
    have hfails : (script.firstStop ≠ .endOfData ∧
        (cut = true → endOfTransmission ∉ script.delivered)) ↔ script.firstStop ≠ .endOfData :=
      and_iff_left fun hcut hmem => hhidden ⟨hcut, hmem⟩
    simp only [report, hfails, hstop]
    rfl

/-- A file is named twice, in two ways, and a missing one between, and an error comes along with a
Ctrl-D. With the end at Ctrl-D the error is not noticed; without it all bytes arrive, and the error
is reported. -/
theorem feed_files_then_reader_interrupted :
    let dir : Directory := { files := [(utf8 "/tmp/a", utf8 "12\n")] }
    let names : List Bytes := [utf8 "/tmp/a", utf8 "missing", utf8 "../tmp/a"]
    let script : Script :=
      [.data (utf8 "x") none, .data [] none,
        .data (utf8 "y" ++ [endOfTransmission] ++ utf8 "z") (some (.error (utf8 "boom"))),
        .data (utf8 "more") none]
    let complaint : Bytes := utf8 "open missing: no such file or directory"
    Queue.feedAll dir.load names (.cutoff { source := script }) { held := utf8 "b" } =
        (.ok [complaint], ⟨utf8 "b12\n12\nxy", true⟩) ∧
      Queue.feedAll dir.load names (.script script) { held := utf8 "b" } =
        (.ok [complaint, utf8 "stdin: input feed: boom"],
          ⟨utf8 "b12\n12\nxy" ++ [endOfTransmission] ++ utf8 "z", true⟩) := by
  intro dir names script complaint
  have hcalm : script.Calm := by simp [script, Script.Calm]
  have hopen : Queue.closed { held := utf8 "b" } = false := rfl
  constructor
  · have hfed := feed_files_then_reader dir.load names hcalm hopen true
    refine hfed.trans ?_
    decide +kernel
  · have hfed := feed_files_then_reader dir.load names hcalm hopen false
    refine hfed.trans ?_
    decide +kernel

/-- Without an end at Ctrl-D such a byte is one like all others, and an error behind it is
reported. -/
theorem feed_reports_error_behind_endOfTransmission :
    let files : Files := Directory.load {}
    let script : Script :=
      [.data [endOfTransmission] none, .data [] (some (.error (utf8 "boom")))]
    script.Calm ∧ script.firstStop = .error (utf8 "boom") ∧
      endOfTransmission ∈ script.delivered ∧
      Queue.feedAll files [] (.script script) {} =
        (.ok [utf8 "stdin: input feed: boom"], ⟨[endOfTransmission], true⟩) := by
  intro files script
  have hcalm : script.Calm := by simp [script, Script.Calm]
  have hfed : Queue.feedAll files [] (.script script) {} = _ :=
    Queue.feedAll_eq files [] rfl hcalm
  refine ⟨hcalm, rfl, by decide +kernel, hfed.trans ?_⟩
  decide +kernel

end Sardine
