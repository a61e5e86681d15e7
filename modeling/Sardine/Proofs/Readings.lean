import Sardine.Proofs.Feeding

/-! Readings one after the other.
However large the readings of a reader are, the first stop is the same, and so are the bytes up to
it. The readings of a reader that ends at a Ctrl-D are those of the script behind it up to the one
that brings the first Ctrl-D; this one is cut, and after it nothing more is read. -/
namespace Sardine

def Event.bytes : Event → Bytes
  | data bytes _ => bytes
  | crash _ => []

def brought (readings : List Reading) : Bytes := readings.flatMap Event.bytes

@[simp] theorem brought_cons (reading : Reading) (readings : List Reading) :
    brought (reading :: readings) = reading.bytes ++ brought readings := rfl

@[simp] theorem brought_append (readings more : List Reading) :
    brought (readings ++ more) = brought readings ++ brought more :=
  List.flatMap_append

/-- The bytes of readings up to the first that brings a stop, and this stop. -/
def upToStop : List Reading → Bytes × Option Stop
  | [] => ([], none)
  | .crash _ :: _ => ([], none)
  | .data bytes (some stop) :: _ => (bytes, some stop)
  | .data bytes none :: readings => (bytes ++ (upToStop readings).1, (upToStop readings).2)

namespace Reader

def readings : List Nat → Reader → List Reading × Reader
  | [], r => ([], r)
  | n :: sizes, r =>
    ((r.read n).1 :: (readings sizes (r.read n).2).1, (readings sizes (r.read n).2).2)

theorem readings_cons {n : Nat} {r rest : Reader} {reading : Reading}
    (h : r.read n = (reading, rest)) (sizes : List Nat) :
    r.readings (n :: sizes) = (reading :: (rest.readings sizes).1, (rest.readings sizes).2) := by
  rw [readings, h]

section Stops

variable {r : Reader}

/-- The first stop and the bytes up to it do not depend on the sizes of the readings. -/
theorem upToStop_readings {sizes : List Nat} {stop : Stop}
    (h : (upToStop (r.readings sizes).1).2 = some stop) :
    upToStop (r.readings sizes).1 = (r.delivered, some r.firstStop) := by
  induction sizes generalizing r with
  | nil => simp [readings, upToStop] at h
  | cons n sizes ih =>
    cases hread : r.read n with
    | mk reading rest =>
      rw [readings_cons hread] at h ⊢
      cases reading with
      | crash text => simp [upToStop] at h
      | data bytes last =>
        cases last with
        | some last =>
          obtain ⟨hbytes, hstop⟩ := delivered_of_stop hread
          rw [upToStop, hbytes, hstop]
        | none =>
          obtain ⟨hbytes, hstop⟩ := delivered_of_data hread
          rw [upToStop, ih h, hbytes, hstop]

theorem exists_stop_of_readings (hcalm : r.source.Calm) {n count : Nat} (hn : 0 < n)
    (hcount : r.size < count) :
    ∃ stop, (upToStop (r.readings (List.replicate count n)).1).2 = some stop := by
  induction count generalizing r with
  | zero => omega
  | succ count ih =>
    cases hread : r.read n with
    | mk reading rest =>
      obtain ⟨hdata, hrest⟩ := calm_of_read hcalm hread
      rw [List.replicate_succ, readings_cons hread]
      cases reading with
      | crash text => exact absurd rfl (hdata text)
      | data bytes last =>
        cases last with
        | some stop => exact ⟨stop, rfl⟩
        | none =>
          have hless := size_read_lt hn hread
          exact ih hrest (by omega)

theorem upToStop_readings_replicate (hcalm : r.source.Calm) {n count : Nat} (hn : 0 < n)
    (hcount : r.size < count) :
    upToStop (r.readings (List.replicate count n)).1 = (r.delivered, some r.firstStop) := by
  obtain ⟨stop, hstop⟩ := exists_stop_of_readings hcalm hn hcount
  exact upToStop_readings hstop

end Stops

end Reader

namespace Cutoff

/-- The bytes that readings take from the script behind. Once it is cut, nothing is taken. -/
def taken : List Nat → Cutoff → Bytes
  | [], _ => []
  | n :: sizes, c =>
    (if c.isCut then [] else (c.source.read n).1.bytes) ++ taken sizes (c.read n).2

theorem readings_of_isCut {c : Cutoff} (h : c.isCut = true) (sizes : List Nat) :
    (Reader.cutoff c).readings sizes =
        (List.replicate sizes.length (.data [] (some .endOfData)), .cutoff c) ∧
      c.taken sizes = [] := by
  have hread : ∀ n, c.read n = (.data [] (some .endOfData), c) := fun n => by
    rw [Cutoff.read, if_pos h]
  induction sizes with
  | nil => exact ⟨rfl, rfl⟩
  | cons n sizes ih =>
    obtain ⟨hreadings, htaken⟩ := ih
    have hreader : (Reader.cutoff c).read n = (.data [] (some .endOfData), .cutoff c) := by
      rw [Reader.read, hread]
    rw [Reader.readings_cons hreader, hreadings, taken, hread, htaken, if_pos h]
    exact ⟨rfl, rfl⟩

/-- The ways in which readings of a script can come out that is to be cut. -/
inductive Passes (script : Script) (sizes : List Nat) : List Reading × Reader → Bytes → Prop
  | uncut {readings : List Reading} {rest : Script}
      (h : (Reader.script script).readings sizes = (readings, .script rest))
      (hnot : endOfTransmission ∉ brought readings) :
      Passes script sizes (readings, .cutoff { source := rest }) (brought readings)
  | cut {before later : List Nat} {n : Nat} {readings : List Reading} {middle rest : Script}
      {bytes : Bytes} {stop : Option Stop} (hsizes : sizes = before ++ n :: later)
      (h : (Reader.script script).readings before = (readings, .script middle))
      (hnot : endOfTransmission ∉ brought readings)
      (hread : middle.read n = (.data bytes stop, rest)) (hmem : endOfTransmission ∈ bytes) :
      Passes script sizes
        (readings ++ .data (beforeCutoff bytes) (some .endOfData) ::
            List.replicate later.length (.data [] (some .endOfData)),
          .cutoff { source := rest, isCut := true })
        (brought readings ++ bytes)

theorem Passes.cons {n : Nat} {script tail : Script} {reading : Reading}
    (hread : script.read n = (reading, tail)) (hnot : endOfTransmission ∉ reading.bytes)
    {sizes : List Nat} {result : List Reading × Reader} {bytes : Bytes}
    (h : Passes tail sizes result bytes) :
    Passes script (n :: sizes) (reading :: result.1, result.2) (reading.bytes ++ bytes) := by
  have hreader : (Reader.script script).read n = (reading, .script tail) := by
    rw [Reader.read, hread]
  have hnone : ∀ {readings}, endOfTransmission ∉ brought readings →
      endOfTransmission ∉ brought (reading :: readings) := fun hrest => by
    simp [hnot, hrest]
  cases h with
  | uncut h hrest =>
    refine uncut ?_ (hnone hrest)
    rw [Reader.readings_cons hreader, h]
  | @cut before later k readings middle rest piece stop hsizes h hrest hlast hmem =>
    have hreadings : (Reader.script script).readings (n :: before) =
        (reading :: readings, .script middle) := by
      rw [Reader.readings_cons hreader, h]
    have hsplit : n :: sizes = (n :: before) ++ k :: later := by rw [hsizes, List.cons_append]
    have hcut := cut hsplit hreadings (hnone hrest) hlast hmem
    rw [brought_cons, List.append_assoc] at hcut
    exact hcut

/-- Readings through a cutoff, by induction on their sizes: as long as no Ctrl-D turns up, each is
the reading of the script. -/
theorem passes (script : Script) (sizes : List Nat) :
    Passes script sizes ((Reader.cutoff { source := script }).readings sizes)
      (Cutoff.taken sizes { source := script }) := by
  induction sizes generalizing script with
  | nil => exact Passes.uncut rfl (by simp [brought])
  | cons n sizes ih =>
    have hreads := Cutoff.reads n { source := script }
    generalize hread : Cutoff.read n { source := script } = result at hreads
    have hreader : (Reader.cutoff { source := script }).read n = (result.1, .cutoff result.2) := by
      rw [Reader.read, hread]
    rw [Reader.readings_cons hreader, taken, hread]
    cases hreads with
    | spent hcut => simp at hcut
    | crashed _ h =>
      have hpasses := (ih _).cons h List.not_mem_nil
      simpa [h] using hpasses
    | passed _ h hnot =>
      have hpasses := (ih _).cons h hnot
      simpa [h] using hpasses
    | @found _ bytes stop rest h hmem =>
      obtain ⟨hspent, hnothing⟩ := readings_of_isCut (c := ⟨rest, true⟩) rfl sizes
      have hsizes : n :: sizes = [] ++ n :: sizes := rfl
      have hnone : (Reader.script script).readings [] = ([], .script script) := rfl
      have hcut := Passes.cut hsizes hnone (by simp [brought]) h hmem
      rw [hspent, hnothing]
      simpa [h, brought, Event.bytes] using hcut

end Cutoff

/-- Readings of any sizes through an end at Ctrl-D. As long as no Ctrl-D has been taken from the
script, they are those of the script. The one with which the first is taken brings the bytes before
it and the end of the data, whatever stop comes with it; all later ones bring the end of the data,
and the script stays where it is. So all that is brought is what has been taken before the first
Ctrl-D, and the reader is cut if and only if one has been taken. -/
theorem readings_cut_at_endOfTransmission (script : Script) (sizes : List Nat) :
    let start : Cutoff := { source := script }
    let taken := start.taken sizes
    let plain := fun sizes => (Reader.script script).readings sizes
    (endOfTransmission ∉ taken →
      ∃ rest, (plain sizes).2 = .script rest ∧ taken = brought (plain sizes).1 ∧
        (Reader.cutoff start).readings sizes = ((plain sizes).1, .cutoff { source := rest })) ∧
      (endOfTransmission ∈ taken →
        ∃ before n later middle bytes stop rest, sizes = before ++ n :: later ∧
          (plain before).2 = .script middle ∧ endOfTransmission ∉ brought (plain before).1 ∧
          middle.read n = (.data bytes stop, rest) ∧ endOfTransmission ∈ bytes ∧
          taken = brought (plain before).1 ++ bytes ∧
          (Reader.cutoff start).readings sizes =
            ((plain before).1 ++ .data (beforeCutoff bytes) (some .endOfData) ::
                List.replicate later.length (.data [] (some .endOfData)),
              .cutoff { source := rest, isCut := true })) ∧
      brought ((Reader.cutoff start).readings sizes).1 = beforeCutoff taken ∧
      ∃ last : Cutoff, ((Reader.cutoff start).readings sizes).2 = .cutoff last ∧
        (last.isCut = true ↔ endOfTransmission ∈ taken) := by
  intro start taken plain
  have hpasses : Cutoff.Passes script sizes ((Reader.cutoff start).readings sizes) taken :=
    Cutoff.passes script sizes
  generalize (Reader.cutoff start).readings sizes = result at hpasses ⊢
  generalize taken = bytes at hpasses ⊢
  cases hpasses with
  | @uncut readings rest h hnot =>
    have hplain : plain sizes = (readings, .script rest) := h
    have hall := beforeCutoff_of_not_mem hnot []
    refine ⟨fun _ => ?_, fun hmem => absurd hmem hnot, ?_, ?_⟩
    · rw [hplain]
      exact ⟨rest, rfl, rfl, rfl⟩
    · simpa [beforeCutoff] using hall.symm
    · exact ⟨_, rfl, by simp [hnot]⟩
  | @cut before later n readings middle rest piece stop hsizes h hnot hread hmem =>
    have htaken : endOfTransmission ∈ brought readings ++ piece := List.mem_append_right _ hmem
    have hbefore : (plain before).1 = readings := congrArg Prod.fst h
    have hnothing : ∀ count : Nat,
        brought (List.replicate count (.data [] (some .endOfData))) = [] := fun count => by
      simp [brought, Event.bytes]
    refine ⟨fun hnone => absurd htaken hnone, fun _ => ?_, ?_, ?_⟩
    · refine ⟨before, n, later, middle, piece, stop, rest, hsizes, congrArg Prod.snd h, ?_⟩
      rw [hbefore]
      exact ⟨hnot, hread, hmem, rfl, rfl⟩
    · rw [brought_append, brought_cons, hnothing, beforeCutoff_of_not_mem hnot]
      simp [Event.bytes]
    · exact ⟨_, rfl, by simp [hmem]⟩

/-- A reading with no room, then one that takes an error along with the Ctrl-D. -/
example :
    (Reader.cutoff { source := [.data [97, 4, 98] (some .stalled)] }).readings [0, 5, 5] =
      ([.data [] none, .data [97] (some .endOfData), .data [] (some .endOfData)],
        .cutoff { source := [], isCut := true }) := by
  decide +kernel

end Sardine
