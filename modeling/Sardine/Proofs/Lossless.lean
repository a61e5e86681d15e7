import Sardine.Proofs.Ledger

/-! A queue loses no byte, adds none and keeps the order.
In every sequence of writes, closes, requests and feeds, with requests that wait for a later write
or for the close, the ledger stays right about the queue. A feed counts as the single calls it is
made of, between which other calls may come. -/
namespace Sardine

namespace QueueSession

inductive Act
  | write (bytes : Bytes)
  | close
  | request (wanted : Queue.Request)
  | measure
  deriving DecidableEq, Repr

/-- A call on a queue; a feed is made up of single calls. -/
inductive Move
  | act (a : Act)
  | feed (reader : Reader)
  deriving DecidableEq, Repr

def completion (s : QueueSession) : Option Reading → List Entry
  | some reading => (s.pending.map (Entry.read · reading)).toList
  | none => []

/-- The ledger is right about the queue and about the pending request, and one is pending only if it
has to wait. -/
structure Accounted (log : List Entry) (s : QueueSession) : Prop extends Agrees log s.queue where
  pending : s.pending = outstanding log
  empty : s.pending ≠ none → s.queue = {}

theorem Agrees.wake {log : List Entry} {s : QueueSession} (h : Agrees log s.queue)
    (hpending : s.pending = outstanding log) :
    Accounted (log ++ s.completion s.wake.1) s.wake.2 := by
  obtain ⟨q, pending⟩ := s
  cases pending with
  | none =>
    simp only [QueueSession.wake, completion, List.append_nil]
    exact ⟨h, hpending, by simp⟩
  | some wanted =>
    simp only [QueueSession.wake]
    cases hserve : q.serve wanted with
    | some served =>
      obtain ⟨reading, after⟩ := served
      exact ⟨h.read hserve, (outstanding_concat log (.read wanted reading)).symm, by simp⟩
    | none =>
      have hserves := Queue.serves q wanted
      rw [hserve] at hserves
      simp only [completion, List.append_nil]
      cases hserves with
      | waits _ hq => exact ⟨h, hpending, fun _ => hq⟩

/-- A session with the ledger of what has happened in it. -/
structure Ledger where
  session : QueueSession := {}
  entries : List Entry := []

namespace Ledger

def act (l : Ledger) : Act → Ledger
  | .write bytes =>
    match l.session.write bytes with
    | (result, completed, session) =>
      ⟨session, l.entries ++ [.wrote bytes result] ++ l.session.completion completed⟩
  | .close =>
    match l.session.close with
    | (result, completed, session) =>
      ⟨session, l.entries ++ [.closed result] ++ l.session.completion completed⟩
  | .request wanted =>
    match l.session.request wanted with
    | (.served reading, session) => ⟨session, l.entries ++ [.read wanted reading]⟩
    | (.waiting, session) => ⟨session, l.entries ++ [.waits wanted]⟩
    | (.busy, session) => ⟨session, l.entries⟩
  | .measure => ⟨l.session, l.entries ++ [.measured l.session.queue.length]⟩

end Ledger

def pieceActs (bytes : Bytes) : List Act := if bytes.isEmpty then [] else [.write bytes]

/-- The calls that a feed makes as long as none is refused: writes of what the reader brings up to
its first stop, and the close. -/
def readerActs (r : Reader) : List Act :=
  match _reading : r.read Queue.feedRoom with
  | (.crash _, _) => []
  | (.data bytes none, rest) => pieceActs bytes ++ readerActs rest
  | (.data bytes (some _), _) => pieceActs bytes ++ [.close]
termination_by r.size
decreasing_by exact Reader.size_read_lt (by decide) _reading

/-- The calls that a feed makes. A closed queue refuses the first, and that is the last one. -/
def feedActs (s : QueueSession) (r : Reader) : List Act :=
  if s.queue.closed then (readerActs r).take 1 else readerActs r

def Ledger.play (l : Ledger) : Move → Ledger
  | .act a => l.act a
  | .feed r => (l.session.feedActs r).foldl Ledger.act l

def Ledger.ofMoves (moves : List Move) : Ledger := moves.foldl Ledger.play {}

section Refused

variable {s : QueueSession} (hclosed : s.queue.closed = true)
include hclosed

theorem write_of_closed (bytes : Bytes) :
    s.write bytes = (.error ⟨.inputClosed, []⟩, none, s) := by
  simp [QueueSession.write, Queue.write_of_closed hclosed]

theorem close_of_closed : s.close = (.error ⟨.inputClosed, []⟩, none, s) := by
  simp [QueueSession.close, Queue.close_of_closed hclosed]

end Refused

section Accepted

variable {s : QueueSession} (hopen : s.queue.closed = false)
include hopen

theorem write_of_open (bytes : Bytes) :
    s.write bytes = (.ok bytes.length,
      wake { s with queue := { s.queue with held := s.queue.held ++ bytes } }) := by
  simp [QueueSession.write, Queue.write_of_open hopen]

theorem close_of_open :
    s.close = (.ok (), wake { s with queue := { s.queue with closed := true } }) := by
  simp [QueueSession.close, Queue.close_of_open hopen]

end Accepted

section Act

variable {l : Ledger} (h : Accounted l.entries l.session)
include h

theorem Accounted.act_write (bytes : Bytes) :
    Accounted (l.act (.write bytes)).entries (l.act (.write bytes)).session := by
  have hpending : ∀ result, l.session.pending = outstanding (l.entries ++ [.wrote bytes result]) :=
    fun result => by simpa [Entry.outstanding] using h.pending
  cases hclosed : l.session.queue.closed with
  | true =>
    simp only [Ledger.act, write_of_closed hclosed, completion, List.append_nil]
    exact ⟨h.write_refused hclosed bytes, hpending _, h.empty⟩
  | false =>
    simp only [Ledger.act, write_of_open hclosed]
    exact (h.wrote hclosed bytes).wake
      (s := { l.session with queue := { l.session.queue with held := _ } }) (hpending _)

theorem Accounted.act_close : Accounted (l.act .close).entries (l.act .close).session := by
  have hpending : ∀ result, l.session.pending = outstanding (l.entries ++ [.closed result]) :=
    fun result => by simpa [Entry.outstanding] using h.pending
  cases hclosed : l.session.queue.closed with
  | true =>
    simp only [Ledger.act, close_of_closed hclosed, completion, List.append_nil]
    exact ⟨h.close_refused hclosed, hpending _, h.empty⟩
  | false =>
    simp only [Ledger.act, close_of_open hclosed]
    exact (h.shut hclosed).wake
      (s := { l.session with queue := { l.session.queue with closed := true } }) (hpending _)

theorem Accounted.act_request (wanted : Queue.Request) :
    Accounted (l.act (.request wanted)).entries (l.act (.request wanted)).session := by
  cases hpending : l.session.pending with
  | some other =>
    simp only [Ledger.act, QueueSession.request, hpending]
    exact h
  | none =>
    have hserves := Queue.serves l.session.queue wanted
    cases hserve : l.session.queue.serve wanted with
    | some served =>
      obtain ⟨reading, after⟩ := served
      simp only [Ledger.act, QueueSession.request, hpending, hserve]
      exact ⟨h.read hserve, (outstanding_concat l.entries (.read wanted reading)).symm, by simp⟩
    | none =>
      rw [hserve] at hserves
      simp only [Ledger.act, QueueSession.request, hpending, hserve]
      cases hserves with
      | waits hwanted hq =>
        have hwaits := outstanding_concat l.entries (.waits wanted)
        exact ⟨h.toAgrees.waits hq hwanted, hwaits.symm, fun _ => hq⟩

/-- What one call keeps. -/
theorem Accounted.act (a : Act) : Accounted (l.act a).entries (l.act a).session := by
  cases a with
  | write bytes => exact h.act_write bytes
  | close => exact h.act_close
  | request wanted => exact h.act_request wanted
  | measure =>
    have hmeasured := outstanding_concat l.entries (.measured l.session.queue.length)
    exact ⟨h.measured, h.pending.trans hmeasured.symm, h.empty⟩

end Act

theorem Accounted.acts {l : Ledger} (h : Accounted l.entries l.session) (acts : List Act) :
    Accounted (acts.foldl Ledger.act l).entries (acts.foldl Ledger.act l).session := by
  induction acts generalizing l with
  | nil => exact h
  | cons a acts ih => exact ih (h.act a)

theorem Accounted.play {l : Ledger} (h : Accounted l.entries l.session) (move : Move) :
    Accounted (l.play move).entries (l.play move).session := by
  cases move with
  | act a => exact h.act a
  | feed r => exact h.acts _

/-- What every sequence of calls keeps. -/
theorem accounted_ofMoves (moves : List Move) :
    Accounted (Ledger.ofMoves moves).entries (Ledger.ofMoves moves).session := by
  have hall : ∀ l : Ledger, Accounted l.entries l.session →
      Accounted (moves.foldl Ledger.play l).entries (moves.foldl Ledger.play l).session := by
    induction moves with
    | nil => exact fun l h => h
    | cons move moves ih => exact fun l h => ih _ (h.play move)
  exact hall {} ⟨⟨rfl, rfl, regular_nil⟩, rfl, by simp⟩

section Feed

theorem readerActs_of_crash {r rest : Reader} {text : Bytes}
    (h : r.read Queue.feedRoom = (.crash text, rest)) : readerActs r = [] := by
  rw [readerActs]
  split <;> simp_all

theorem readerActs_of_data {r rest : Reader} {bytes : Bytes}
    (h : r.read Queue.feedRoom = (.data bytes none, rest)) :
    readerActs r = pieceActs bytes ++ readerActs rest := by
  rw [readerActs]
  split <;> simp_all

theorem readerActs_of_stop {r rest : Reader} {bytes : Bytes} {stop : Stop}
    (h : r.read Queue.feedRoom = (.data bytes (some stop), rest)) :
    readerActs r = pieceActs bytes ++ [.close] := by
  rw [readerActs]
  split <;> simp_all

theorem Ledger.act_write {l : Ledger} {q : Queue} (hl : l.session = { queue := q })
    (hopen : q.closed = false) (bytes : Bytes) :
    (l.act (.write bytes)).session = { queue := { q with held := q.held ++ bytes } } := by
  have hwrite := write_of_open (s := { queue := q }) hopen bytes
  simp only [Ledger.act, hl, hwrite]
  rfl

theorem Ledger.act_close {l : Ledger} {q : Queue} (hl : l.session = { queue := q })
    (hopen : q.closed = false) :
    (l.act .close).session = { queue := { q with closed := true } } := by
  have hclose := close_of_open (s := { queue := q }) hopen
  simp only [Ledger.act, hl, hclose]
  rfl

/-- The single calls of a feed do together what the feed does. -/
theorem foldl_readerActs {l : Ledger} {q : Queue} (hl : l.session = { queue := q })
    (hopen : q.closed = false) (r : Reader) :
    ((readerActs r).foldl Ledger.act l).session = { queue := (q.feed r).2 } := by
  fun_induction Queue.feed q r generalizing l with
  | case1 q r text rest hread =>
    rw [readerActs_of_crash hread]
    exact hl
  | case2 q r bytes rest hread hempty ih =>
    rw [readerActs_of_data hread, pieceActs, if_pos hempty]
    exact ih hl hopen
  | case3 q r bytes rest hread hne e hwrite => simp [Queue.write_of_open hopen] at hwrite
  | case4 q r bytes rest hread hne after hwrite ih =>
    obtain rfl : { q with held := q.held ++ bytes } = after := by
      simpa [Queue.write_of_open hopen] using hwrite
    rw [readerActs_of_data hread, pieceActs, if_neg hne]
    exact ih (Ledger.act_write hl hopen bytes) hopen
  | case5 q r bytes stop rest hread hempty =>
    rw [readerActs_of_stop hread, pieceActs, if_pos hempty, Queue.endFeed_of_open hopen]
    exact Ledger.act_close hl hopen
  | case6 q r bytes stop rest hread hne e hwrite => simp [Queue.write_of_open hopen] at hwrite
  | case7 q r bytes stop rest hread hne after hwrite =>
    obtain rfl : { q with held := q.held ++ bytes } = after := by
      simpa [Queue.write_of_open hopen] using hwrite
    rw [readerActs_of_stop hread, pieceActs, if_neg hne,
      Queue.endFeed_of_open (q := { q with held := q.held ++ bytes }) hopen]
    exact Ledger.act_close (Ledger.act_write hl hopen bytes) hopen

theorem eq_write_of_mem_pieceActs {bytes : Bytes} {a : Act} (h : a ∈ pieceActs bytes) :
    a = .write bytes := by
  unfold pieceActs at h
  split at h
  · simp at h
  · simpa using h

theorem mem_readerActs {r : Reader} {a : Act} (h : a ∈ readerActs r) :
    (∃ bytes, a = .write bytes) ∨ a = .close := by
  fun_induction readerActs r with
  | case1 => simp at h
  | case2 r bytes rest hread ih =>
    rcases List.mem_append.mp h with h | h
    · exact Or.inl ⟨bytes, eq_write_of_mem_pieceActs h⟩
    · exact ih h
  | case3 r bytes stop rest hread =>
    rcases List.mem_append.mp h with h | h
    · exact Or.inl ⟨bytes, eq_write_of_mem_pieceActs h⟩
    · exact Or.inr (by simpa using h)

theorem foldl_take_readerActs {l : Ledger} (hclosed : l.session.queue.closed = true) (r : Reader) :
    (((readerActs r).take 1).foldl Ledger.act l).session = l.session := by
  cases hacts : readerActs r with
  | nil => rfl
  | cons a acts =>
    have hmem : a ∈ readerActs r := by simp [hacts]
    rcases mem_readerActs hmem with ⟨bytes, rfl⟩ | rfl
    · simp [Ledger.act, write_of_closed hclosed]
    · simp [Ledger.act, close_of_closed hclosed]

theorem Ledger.session_feed {l : Ledger} (hidle : l.session.pending = none) (r : Reader) :
    (l.play (.feed r)).session = (l.session.feed r).2 := by
  have hl : l.session = { queue := l.session.queue } := by rw [← hidle]
  have hfeed : (l.session.feed r).2 = { queue := (l.session.queue.feed r).2 } := by
    rw [hl]
    rfl
  rw [hfeed, Ledger.play, feedActs]
  cases hclosed : l.session.queue.closed with
  | true =>
    rw [if_pos rfl, foldl_take_readerActs hclosed, Queue.feed_of_closed hclosed]
    exact hl
  | false =>
    rw [if_neg (by simp)]
    exact foldl_readerActs hl hclosed r

end Feed

theorem request_of_exhausted {s : QueueSession} (hidle : s.pending = none)
    (hqueue : s.queue = ⟨[], true⟩) {wanted : Queue.Request} (hwanted : wanted ≠ .bytes 0) :
    s.request wanted = (.served Queue.exhausted, s) := by
  obtain ⟨q, pending⟩ := s
  obtain rfl : pending = none := hidle
  obtain rfl : q = ⟨[], true⟩ := hqueue
  have hserves := Queue.serves ⟨[], true⟩ wanted
  generalize hserve : Queue.serve ⟨[], true⟩ wanted = result at hserves
  cases hserves with
  | nothing => exact absurd rfl hwanted
  | some hne _ h => exact absurd (List.append_eq_nil_iff.mp h.symm).1 hne
  | ended => simp [QueueSession.request, hserve]
  | waits _ h => simp at h

theorem Accounted.queue_of_exhausted {log before after : List Entry} {s : QueueSession}
    {wanted : Queue.Request} (h : Accounted log s)
    (hlog : log = before ++ .read wanted Queue.exhausted :: after) :
    s.pending = none ∧ s.queue = ⟨[], true⟩ := by
  have hregular := h.regular
  rw [hlog] at hregular
  obtain ⟨hclosed, hwritten⟩ := hregular.written_of_exhausted
  have hqueue : s.queue.closed = true := by
    rw [h.closed, hlog, isClosed_append, hclosed, Bool.true_or]
  have hconserved := congrArg List.length h.conserved
  rw [hlog, hwritten, delivered_append] at hconserved
  simp only [List.length_append] at hconserved
  have hheld : s.queue.held = [] := List.eq_nil_of_length_eq_zero (by omega)
  refine ⟨?_, by rw [← hheld, ← hqueue]⟩
  by_contra hpending
  rw [h.empty hpending] at hqueue
  exact absurd hqueue (by decide)

end QueueSession

open QueueSession in
/-- Whatever is called on a new queue, the bytes delivered and then the bytes held are the bytes
written. Every call comes back with what the calls before it lead one to expect: in particular the
end of the data is read only from a closed queue whose bytes have all been delivered. From the first
close on, writing and closing are refused and change nothing; from the first end of the data on,
every reading brings the end again; and a request is pending only at an empty and open queue. Where
no request is pending, a feed is the feed of the session. -/
theorem queue_lossless (moves : List Move) :
    let l := Ledger.ofMoves moves
    delivered l.entries ++ l.session.queue.held = written l.entries ∧
      Regular l.entries ∧
      (isClosed l.entries = true →
        (∀ bytes, l.session.write bytes = (.error ⟨.inputClosed, []⟩, none, l.session)) ∧
          l.session.close = (.error ⟨.inputClosed, []⟩, none, l.session)) ∧
      (∀ before wanted after, l.entries = before ++ .read wanted Queue.exhausted :: after →
        (∀ other reading, other ≠ .bytes 0 → .read other reading ∈ after →
          reading = Queue.exhausted) ∧
        ∀ other, other ≠ .bytes 0 →
          l.session.request other = (.served Queue.exhausted, l.session)) ∧
      l.session.pending = outstanding l.entries ∧
      (l.session.pending ≠ none → l.session.queue.held = [] ∧ l.session.queue.closed = false) ∧
      (l.session.pending = none → ∀ wanted, (l.session.request wanted).1 ≠ .busy) ∧
      ∀ r, l.session.pending = none → (l.play (.feed r)).session = (l.session.feed r).2 := by
  intro l
  have h : Accounted l.entries l.session := accounted_ofMoves moves
  refine ⟨h.conserved, h.regular, fun hclosed => ?_, fun before wanted after heq => ?_, h.pending,
    fun hpending => ?_, fun hidle wanted => ?_, fun r hidle => Ledger.session_feed hidle r⟩
  · have hqueue : l.session.queue.closed = true := by rw [h.closed, hclosed]
    exact ⟨write_of_closed hqueue, close_of_closed hqueue⟩
  · obtain ⟨hidle, hqueue⟩ := h.queue_of_exhausted heq
    have hregular := h.regular
    rw [heq] at hregular
    exact ⟨fun other reading hother hmem => hregular.exhausted_of_exhausted hother hmem,
      fun other hother => request_of_exhausted hidle hqueue hother⟩
  · rw [h.empty hpending]
    exact ⟨rfl, rfl⟩
  · simp only [QueueSession.request, hidle]
    cases l.session.queue.serve wanted <;> simp

end Sardine
