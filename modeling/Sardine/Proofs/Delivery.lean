import Sardine.Proofs.Readings

/-! What a feed makes of a queue and of a reader.
An open queue gets all that the reader brings up to its first stop, and is closed. A closed queue
gets nothing: the first piece of data is refused, or else the close is, and only an error that comes
before any data is reported in place of the refusal. -/
namespace Sardine

namespace Queue

variable {q : Queue} {r : Reader}

theorem endFeed_of_refusing (hclosed : q.closed = true) (stop : Stop) :
    (q.endFeed stop).1 =
      .failed (if stop = .endOfData then ⟨.inputClosed, []⟩ else stop.toError.wrap feedNote) := by
  cases stop <;> simp [endFeed, close_of_closed hclosed]

/-- By induction over the readings of the feed: the first that brings a byte is the last one, and
those before it bring neither bytes nor a stop. -/
theorem outcome_feed_of_closed (hclosed : q.closed = true) (hcalm : r.source.Calm) :
    (q.feed r).1 = .failed (if r.delivered ≠ [] ∨ r.firstStop = .endOfData then ⟨.inputClosed, []⟩
      else r.firstStop.toError.wrap feedNote) := by
  fun_induction Queue.feed q r with
  | case1 q r text rest hread => exact absurd rfl ((Reader.calm_of_read hcalm hread).1 text)
  | case2 q r bytes rest hread hempty ih =>
    obtain ⟨hbytes, hstop⟩ := Reader.delivered_of_data hread
    obtain rfl : bytes = [] := List.isEmpty_iff.mp hempty
    rw [ih hclosed (Reader.calm_of_read hcalm hread).2, hbytes, hstop, List.nil_append]
  | case3 q r bytes rest hread hne e hwrite =>
    obtain ⟨hbytes, -⟩ := Reader.delivered_of_data hread
    rw [write_of_closed hclosed] at hwrite
    obtain rfl := Except.error.inj hwrite
    have hsome : r.delivered ≠ [] := by
      rw [hbytes]
      exact fun hnil => hne (List.isEmpty_iff.mpr (List.append_eq_nil_iff.mp hnil).1)
    rw [if_pos (Or.inl hsome)]
  | case4 q r bytes rest hread hne after hwrite ih => simp [write_of_closed hclosed] at hwrite
  | case5 q r bytes stop rest hread hempty =>
    obtain ⟨hbytes, hstop⟩ := Reader.delivered_of_stop hread
    have hnone : r.delivered = [] := hbytes.trans (List.isEmpty_iff.mp hempty)
    rw [endFeed_of_refusing hclosed, hnone, hstop]
    simp
  | case6 q r bytes stop rest hread hne e hwrite =>
    obtain ⟨hbytes, -⟩ := Reader.delivered_of_stop hread
    rw [write_of_closed hclosed] at hwrite
    obtain rfl := Except.error.inj hwrite
    have hsome : r.delivered ≠ [] := by
      rw [hbytes]
      exact fun hnil => hne (List.isEmpty_iff.mpr hnil)
    rw [if_pos (Or.inl hsome)]
  | case7 q r bytes stop rest hread hne after hwrite => simp [write_of_closed hclosed] at hwrite

theorem feed_eq_of_closed (hclosed : q.closed = true) (hcalm : r.source.Calm) :
    q.feed r =
      (.failed (if r.delivered ≠ [] ∨ r.firstStop = .endOfData then ⟨.inputClosed, []⟩
        else r.firstStop.toError.wrap feedNote), q) :=
  Prod.ext (outcome_feed_of_closed hclosed hcalm) (feed_of_closed hclosed r)

end Queue

/-- A feed comes back and leaves the queue closed. What the reader delivers is what readings bring
up to the first that stops, however large they are, and readings of the size that a feed makes do
come to a stop. To an open queue just this is added, and the result is an error only if the reader
stops with one. A closed queue stays as it is, and the result is that it is closed, unless the
reader has stopped with an error before it has delivered any byte. -/
theorem feed_appends_delivered (q : Queue) {r : Reader} (hcalm : r.source.Calm) :
    (∀ count, r.size < count →
        upToStop (r.readings (List.replicate count Queue.feedRoom)).1 =
          (r.delivered, some r.firstStop)) ∧
      (∀ sizes stop, (upToStop (r.readings sizes).1).2 = some stop →
        upToStop (r.readings sizes).1 = (r.delivered, some r.firstStop)) ∧
      (q.feed r).2.closed = true ∧
      (q.closed = false → q.feed r =
        (if r.firstStop = .endOfData then .ok ()
          else .failed (r.firstStop.toError.wrap (utf8 "input feed")),
          { held := q.held ++ r.delivered, closed := true })) ∧
      (q.closed = true → q.feed r =
        (.failed (if r.delivered ≠ [] ∨ r.firstStop = .endOfData then ⟨.inputClosed, []⟩
          else r.firstStop.toError.wrap (utf8 "input feed")), q)) := by
  have hopen : q.closed = false → q.feed r =
      (if r.firstStop = .endOfData then .ok ()
        else .failed (r.firstStop.toError.wrap (utf8 "input feed")),
        { held := q.held ++ r.delivered, closed := true }) := by
    intro hopen
    rw [Queue.feed_eq hopen hcalm]
    cases r.firstStop <;> rfl
  have hclosed := fun hclosed : q.closed = true => Queue.feed_eq_of_closed hclosed hcalm
  refine ⟨fun count hcount => ?_, fun sizes stop hstop => Reader.upToStop_readings hstop, ?_, hopen,
    hclosed⟩
  · exact Reader.upToStop_readings_replicate hcalm (by decide) hcount
  · cases hstate : q.closed with
    | false => rw [hopen hstate]
    | true => rw [hclosed hstate, hstate]

/-- Data with an error, behind a reading that brings nothing: an open queue gets the data, and the
error is reported; a closed one refuses the data, and reports the error if there are none. -/
theorem feed_appends_delivered_withError :
    let boom : Stop := .error (utf8 "boom")
    let script : Script :=
      [.data [] none, .data (utf8 "ab") none, .data (utf8 "c") (some boom), .data (utf8 "d") none]
    Queue.feed { held := utf8 "x" } (.script script) =
        (.failed ⟨.reader (utf8 "boom"), [utf8 "input feed"]⟩, ⟨utf8 "xabc", true⟩) ∧
      Queue.feed ⟨utf8 "x", true⟩ (.script script) =
        (.failed ⟨.inputClosed, []⟩, ⟨utf8 "x", true⟩) ∧
      Queue.feed ⟨utf8 "x", true⟩ (.script [.data [] none, .data [] (some boom)]) =
        (.failed ⟨.reader (utf8 "boom"), [utf8 "input feed"]⟩, ⟨utf8 "x", true⟩) := by
  intro boom script
  have hcalm : Script.Calm script := by simp [script, Script.Calm]
  have hnothing : Script.Calm [.data [] none, .data [] (some boom)] := by simp [Script.Calm]
  obtain ⟨-, -, -, hopen, -⟩ :=
    feed_appends_delivered { held := utf8 "x" } (r := .script script) hcalm
  obtain ⟨-, -, -, -, hclosed⟩ :=
    feed_appends_delivered ⟨utf8 "x", true⟩ (r := .script script) hcalm
  obtain ⟨-, -, -, -, herror⟩ := feed_appends_delivered ⟨utf8 "x", true⟩
    (r := .script [.data [] none, .data [] (some boom)]) hnothing
  refine ⟨(hopen rfl).trans ?_, (hclosed rfl).trans ?_, (herror rfl).trans ?_⟩
  all_goals decide +kernel

end Sardine
