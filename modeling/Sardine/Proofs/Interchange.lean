import Sardine.Proofs.Supply

/-! Programs do not notice what kind of reader their bytes come from.
A reader that is asked for single bytes, one that fills a buffer and the bytes themselves bring the
same, however the bytes are parted: none of them ever has to wait, and once the data has ended it
stays so. Machines at inputs that bring the same make the same steps. -/
namespace Sardine

/-- Scripts that bring some bytes in non-empty pieces. The end of the data comes along with the last
piece or behind it. -/
inductive Script.Parts : Bytes → Script → Prop
  | nil : Parts [] []
  | last {piece : Bytes} (hne : piece ≠ []) : Parts piece [.data piece (some .endOfData)]
  | cons {piece bytes : Bytes} {rest : Script} (hne : piece ≠ []) (h : Parts bytes rest) :
      Parts (piece ++ bytes) (.data piece none :: rest)

namespace Script

inductive Parts.Reads : Bytes → Reading × Script → Prop
  | ended : Reads [] (.data [] (some .endOfData), [])
  | some {b : UInt8} {piece bytes : Bytes} {rest : Script} (h : Parts bytes rest) :
      Reads (b :: piece ++ bytes) (.data (b :: piece) none, rest)
  | last (b : UInt8) (piece : Bytes) :
      Reads (b :: piece) (.data (b :: piece) (some .endOfData), [])

theorem Parts.reads {bytes : Bytes} {script : Script} (h : Parts bytes script) {n : Nat}
    (hn : 0 < n) : Parts.Reads bytes (script.read n) := by
  -- The beginning of a piece that is too large; its rest is a piece again.
  have hpart : ∀ whole : Bytes, n < whole.length →
      (∃ b part, whole.take n = b :: part) ∧ whole.drop n ≠ [] := by
    intro whole hlarge
    have htake : whole.take n ≠ [] := by
      rw [ne_eq, List.take_eq_nil_iff]
      rintro (rfl | rfl)
      · exact absurd hn (by simp)
      · simp at hlarge
    exact ⟨List.exists_cons_of_ne_nil htake, by simpa using hlarge⟩
  cases h with
  | nil => exact Reads.ended
  | last hne =>
    by_cases hlarge : n < bytes.length
    · obtain ⟨⟨b, part, htake⟩, hdrop⟩ := hpart bytes hlarge
      have hreads : Reads (b :: part ++ bytes.drop n) _ := Reads.some (Parts.last hdrop)
      rw [← htake, List.take_append_drop] at hreads
      rwa [read, if_pos hlarge]
    · obtain ⟨b, part, rfl⟩ := List.exists_cons_of_ne_nil hne
      rw [read, if_neg hlarge]
      exact Reads.last b part
  | @cons piece bytes rest hne h =>
    by_cases hlarge : n < piece.length
    · obtain ⟨⟨b, part, htake⟩, hdrop⟩ := hpart piece hlarge
      have hreads : Reads (b :: part ++ (piece.drop n ++ bytes)) _ :=
        Reads.some (Parts.cons hdrop h)
      rw [← htake, ← List.append_assoc, List.take_append_drop] at hreads
      rwa [read, if_pos hlarge]
    · obtain ⟨b, part, rfl⟩ := List.exists_cons_of_ne_nil hne
      rw [read, if_neg hlarge]
      exact Reads.some h

theorem refill_of_read {room tries : Nat} {script rest : Script} {reading : Reading}
    (h : script.read room = (reading, rest)) (hsome : reading ≠ .data [] none) :
    script.refill room (tries + 1) = (reading, rest) := by
  unfold refill
  rw [h]
  split
  · rename_i heq
    exact absurd (congrArg Prod.fst heq) hsome
  · rfl

end Script

namespace Input

/-- What an input brings depends on its answers only. -/
theorem Supplies.of_next {input other : Input} (hnext : input.next = other.next) {bytes : Bytes}
    {arrivals : List Queue} (h : Supplies bytes arrivals other) :
    Supplies bytes arrivals input := by
  cases h with
  | dry h =>
    obtain ⟨after, hother, hafter⟩ := h.exists_next
    exact Supplies.dry (IsDry.again (hnext.trans hother) hafter)
  | byte h hrest => exact Supplies.byte (hnext.trans h) hrest
  | waits h hrest => exact Supplies.waits (hnext.trans h) hrest

theorem Supplies.exists_end {input : Input} (h : Supplies [] [] input) :
    ∃ after, input.next = (.stopped .endOfData, after) ∧ Supplies [] [] after := by
  cases h with
  | dry h =>
    obtain ⟨after, hnext, hafter⟩ := h.exists_next
    exact ⟨after, hnext, Supplies.dry hafter⟩

theorem Supplies.exists_byte {input : Input} {b : UInt8} {bytes : Bytes}
    (h : Supplies (b :: bytes) [] input) :
    ∃ after, input.next = (.byte b, after) ∧ Supplies bytes [] after := by
  cases h with
  | byte h hrest => exact ⟨_, h, hrest⟩

section Direct

theorem supplies_piece (piece : Bytes) {bytes : Bytes} {rest : Script}
    (h : Supplies bytes [] (.direct rest)) :
    Supplies (piece ++ bytes) [] (.direct (.data piece none :: rest)) := by
  induction piece with
  | nil =>
    have hnext : (Input.direct (.data [] none :: rest)).next = (Input.direct rest).next := rfl
    exact h.of_next hnext
  | cons b piece ih => exact Supplies.byte rfl ih

theorem supplies_lastPiece (piece : Bytes) :
    Supplies piece [] (.direct [.data piece (some .endOfData)]) := by
  induction piece with
  | nil =>
    have hend : (Input.direct []).IsDry := IsDry.stays rfl
    exact Supplies.dry (IsDry.again rfl hend)
  | cons b piece ih => exact Supplies.byte rfl ih

theorem supplies_direct {bytes : Bytes} {script : Script} (h : script.Parts bytes) :
    Supplies bytes [] (.direct script) := by
  induction h with
  | nil => exact Supplies.dry (IsDry.stays rfl)
  | last => exact supplies_lastPiece _
  | cons _ _ ih => exact supplies_piece _ ih

end Direct

section Buffered

theorem supplies_ready (ready : Bytes) {bytes : Bytes} {source : Script} {stop : Option Stop}
    (h : Supplies bytes [] (.buffered { source, stop })) :
    Supplies (ready ++ bytes) [] (.buffered { source, ready, stop }) := by
  induction ready with
  | nil => exact h
  | cons b ready ih => exact Supplies.byte rfl ih

theorem next_of_refill {script rest : Script} {b : UInt8} {ready : Bytes} {stop : Option Stop}
    (h : script.read BufferedReader.capacity = (.data (b :: ready) stop, rest)) :
    (Input.buffered { source := script }).next =
      (.byte b, .buffered { source := rest, ready, stop }) := by
  have hrefill : script.refill BufferedReader.capacity BufferedReader.patience =
      (.data (b :: ready) stop, rest) := Script.refill_of_read h (by simp)
  simp only [next, BufferedReader.next, hrefill]

/-- By induction on the bytes, one reading at a time: what it brings is ready, and what is left is a
script of the same kind. -/
theorem supplies_buffered {bytes : Bytes} {script : Script} (h : script.Parts bytes) :
    Supplies bytes [] (.buffered { source := script }) := by
  induction hlength : bytes.length using Nat.strongRecOn generalizing bytes script with
  | _ length ih =>
    have hreads := h.reads (n := BufferedReader.capacity) (by decide)
    generalize hread : script.read BufferedReader.capacity = result at hreads
    have hnil : (Input.buffered { source := [] }).next =
        (.stopped .endOfData, .buffered { source := [] }) := rfl
    cases hreads with
    | ended =>
      have hrefill : script.refill BufferedReader.capacity BufferedReader.patience =
          (.data [] (some .endOfData), []) := Script.refill_of_read hread (by simp)
      have hnext : (Input.buffered { source := script }).next =
          (.stopped .endOfData, .buffered { source := [] }) := by
        simp only [next, BufferedReader.next, hrefill]
      exact Supplies.dry (IsDry.again hnext (IsDry.stays hnil))
    | @some b piece bytes rest hparts =>
      have hshorter : bytes.length < length := by
        simp only [List.length_append, List.length_cons] at hlength
        omega
      have hrest : Supplies bytes [] (.buffered { source := rest }) := ih _ hshorter hparts rfl
      exact Supplies.byte (next_of_refill hread) (supplies_ready piece hrest)
    | last b piece =>
      have hend : Supplies [] [] (.buffered { source := [], stop := some .endOfData }) :=
        Supplies.dry (IsDry.again rfl (IsDry.stays hnil))
      have hpiece : Supplies (piece ++ []) [] (.buffered ⟨[], piece, some .endOfData⟩) :=
        supplies_ready piece hend
      rw [List.append_nil] at hpiece
      exact Supplies.byte (next_of_refill hread) hpiece

end Buffered

/-- Two inputs, both of them there, that bring the same bytes and then nothing more. -/
structure Interchangeable (input other : Input) : Prop where
  there : input ≠ .absent
  otherThere : other ≠ .absent
  supply : ∃ bytes, input.Supplies bytes [] ∧ other.Supplies bytes []

end Input

namespace Channels

/-- The same has been fetched from two inputs, and what they still bring is the same. -/
inductive Alike : Fetched × Channels → Fetched × Channels → Prop
  | intro {input other : Input} (fetched : Fetched) (output : Output)
      (h : input.Interchangeable other) :
      Alike (fetched, ⟨input, output⟩) (fetched, ⟨other, output⟩)

/-- By induction on the bytes to come: both inputs answer with the first of them, and the output is
flushed in between in the same way. -/
theorem receive_alike {bytes : Bytes} {input other : Input} (hthere : input ≠ .absent)
    (hother : other ≠ .absent) (hinput : input.Supplies bytes [])
    (hsame : other.Supplies bytes []) (w : Wait) (output : Output) :
    Alike (receive w ⟨input, output⟩) (receive w ⟨other, output⟩) := by
  induction bytes generalizing input other w output with
  | nil =>
    obtain ⟨after, hnext, hafter⟩ := hinput.exists_end
    obtain ⟨otherAfter, hotherNext, hotherAfter⟩ := hsame.exists_end
    rw [receive_of_end hnext, receive_of_end hotherNext]
    exact Alike.intro _ _ ⟨Input.next_ne_absent hnext hthere,
      Input.next_ne_absent hotherNext hother, [], hafter, hotherAfter⟩
  | cons b bytes ih =>
    obtain ⟨after, hnext, hafter⟩ := hinput.exists_byte
    obtain ⟨otherAfter, hotherNext, hotherAfter⟩ := hsame.exists_byte
    have hthere' := Input.next_ne_absent hnext hthere
    have hother' := Input.next_ne_absent hotherNext hother
    rw [receive_of_byte hnext, receive_of_byte hotherNext]
    have hleft : after.Interchangeable otherAfter :=
      ⟨hthere', hother', bytes, hafter, hotherAfter⟩
    split
    · exact Alike.intro _ _ hleft
    · split
      · exact ih hthere' hother' hafter hotherAfter _ _
      · exact Alike.intro _ _ hleft
      · exact Alike.intro _ _ hleft

theorem fetch_of_there {input : Input} (hthere : input ≠ .absent) (w : Wait) (output : Output) :
    fetch w ⟨input, output⟩ =
      match output.flush with
      | (.ok (), output) => receive w ⟨input, output⟩
      | (.failed e, output) => (.failed (e.wrap flushNote), ⟨input, output⟩)
      | (.crashed text, output) => (.failed ⟨.crash text, []⟩, ⟨input, output⟩) := by
  cases input with
  | absent => exact absurd rfl hthere
  | _ => rfl

theorem fetch_alike {input other : Input} (h : input.Interchangeable other) (w : Wait)
    (output : Output) : Alike (fetch w ⟨input, output⟩) (fetch w ⟨other, output⟩) := by
  rw [fetch_of_there h.there, fetch_of_there h.otherThere]
  obtain ⟨bytes, hinput, hother⟩ := h.supply
  split
  · exact receive_alike h.there h.otherThere hinput hother w _
  · exact Alike.intro _ _ h
  · exact Alike.intro _ _ h

end Channels

namespace Machine

inductive Step.Alike : Step → Step → Prop
  | intro {input other : Input} (s : Step) (h : input.Interchangeable other) :
      Alike (s.withInput input) (s.withInput other)

theorem Step.Alike.blind_eq {s t : Step} (h : s.Alike t) : s.blind = t.blind := by
  cases h with
  | intro u _ => rw [blind_withInput, blind_withInput]

theorem settle_alike {here there : Fetched × Channels} (h : Channels.Alike here there)
    (m : Machine) : Step.Alike (settle (m.afterFetch here)) (settle (m.afterFetch there)) := by
  cases h with
  | @intro input other fetched output h =>
    have hinput : ∀ input, settle (m.afterFetch (fetched, ⟨input, output⟩)) =
        (settle (m.afterFetch (fetched, ⟨.absent, output⟩))).withInput input := by
      intro input
      rw [← settle_withInput]
      cases fetched <;> rfl
    rw [hinput input, hinput other]
    exact Step.Alike.intro _ h

section Alike

variable {m : Machine} {input other : Input} (h : input.Interchangeable other)
include h

theorem step_alike : Step.Alike (m.withInput input).step (m.withInput other).step := by
  rcases step_input m with ⟨-, hsame⟩ | ⟨ins, w, hread⟩
  · rw [hsame, hsame]
    exact Step.Alike.intro _ h
  · rw [hread, hread]
    exact settle_alike (Channels.fetch_alike h w _) _

theorem blind_stepped_alike (k : Nat) :
    ((m.withInput input).stepped k).step.blind = ((m.withInput other).stepped k).step.blind := by
  induction k generalizing m input other with
  | zero => exact (step_alike h).blind_eq
  | succ k ih =>
    have halike := step_alike (m := m) h
    rw [stepped, stepped]
    generalize (m.withInput input).step = s, (m.withInput other).step = t at halike ⊢
    cases halike with
    | intro s h =>
      rw [machine_withInput, machine_withInput]
      exact ih h

end Alike

end Machine

/-- A reader that is asked for single bytes and one that is read through a buffer give, step by
step, what the bytes themselves give: the same results and the same machine but for the input. -/
theorem readers_interchangeable (m : Machine) {bytes : Bytes} {script : Script}
    (h : script.Parts bytes) (k : Nat) :
    let whole := ((m.withInput (.bytes bytes)).stepped k).step.blind
    ((m.withInput (.direct script)).stepped k).step.blind = whole ∧
      ((m.withInput (.buffered { source := script })).stepped k).step.blind = whole := by
  have hbytes := Input.supplies_bytes bytes
  have hdirect : (Input.direct script).Interchangeable (.bytes bytes) :=
    ⟨by simp, by simp, bytes, Input.supplies_direct h, hbytes⟩
  have hbuffered : (Input.buffered { source := script }).Interchangeable (.bytes bytes) :=
    ⟨by simp, by simp, bytes, Input.supplies_buffered h, hbytes⟩
  exact ⟨Machine.blind_stepped_alike hdirect k, Machine.blind_stepped_alike hbuffered k⟩

/-- A number whose line ends between two pieces, and a character out of a piece that does not fit
the buffer and brings the end of the data along. -/
theorem readers_interchangeable_largePiece :
    let m : Machine :=
      { program := ⟨#[{ op := .getNumber }, { op := .putNumber }, { op := .getChar }], []⟩
        mem := #[0]
        channels := { output := .direct { canFlush := true } } }
    let last : Bytes := Bytes.newline :: List.replicate 5000 55
    let script : Script := [.data (utf8 "12\r") none, .data last (some .endOfData)]
    let whole := ((m.withInput (.bytes (utf8 "12\r" ++ last))).stepped 2).step.blind
    script.Parts (utf8 "12\r" ++ last) ∧
      ((m.withInput (.direct script)).stepped 2).step.blind = whole ∧
      ((m.withInput (.buffered { source := script })).stepped 2).step.blind = whole ∧
      whole.machine.mem = #[55] := by
  intro m last script whole
  have h : script.Parts (utf8 "12\r" ++ last) :=
    Script.Parts.cons (by decide +kernel) (Script.Parts.last (List.cons_ne_nil _ _))
  obtain ⟨hdirect, hbuffered⟩ := readers_interchangeable m h 2
  exact ⟨h, hdirect, hbuffered, by decide +kernel⟩

end Sardine
