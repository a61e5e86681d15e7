import Sardine.Input.QueueSession
import Mathlib.Data.List.Basic

/-! What comes of the calls on a queue, put down line by line.
A ledger is right about a queue if what it says was delivered, and then what the queue holds, is
what it says was written, and if every line of it is what the lines above lead one to expect. One
lemma for each kind of line says how the ledger stays right. -/
namespace Sardine

namespace Queue

def Request.most : Request → Nat
  | byte => 1
  | bytes n => n

def exhausted : Reading := .data [] (some .endOfData)

inductive Serves (q : Queue) : Request → Option (Reading × Queue) → Prop
  | nothing : Serves q (.bytes 0) (some (.data [] none, q))
  | some {wanted : Request} {bytes rest : Bytes} (hne : bytes ≠ [])
      (hmost : bytes.length ≤ wanted.most) (h : q.held = bytes ++ rest) :
      Serves q wanted (some (.data bytes none, { q with held := rest }))
  | ended {wanted : Request} (hwanted : wanted ≠ .bytes 0) (h : q = ⟨[], true⟩) :
      Serves q wanted (some (exhausted, q))
  | waits {wanted : Request} (hwanted : wanted ≠ .bytes 0) (h : q = {}) : Serves q wanted none

theorem serves (q : Queue) (wanted : Request) : Serves q wanted (q.serve wanted) := by
  obtain ⟨held, closed⟩ := q
  cases wanted with
  | byte =>
    cases held with
    | nil =>
      cases closed with
      | true => exact Serves.ended (by simp) rfl
      | false => exact Serves.waits (by simp) rfl
    | cons b held =>
      have h : Queue.held ⟨b :: held, closed⟩ = [b] ++ held := rfl
      exact Serves.some (by simp) (Nat.le_refl 1) h
  | bytes n =>
    by_cases hn : n = 0
    · subst hn
      exact Serves.nothing
    · have hwanted : Request.bytes n ≠ .bytes 0 := by simpa using hn
      cases held with
      | nil =>
        cases closed with
        | true =>
          simp only [serve, hn, isWaiting]
          exact Serves.ended hwanted rfl
        | false =>
          simp only [serve, hn, isWaiting]
          exact Serves.waits hwanted rfl
      | cons b held =>
        have hne : (b :: held).take n ≠ [] := by simpa using hn
        have hmost : ((b :: held).take n).length ≤ n := List.length_take_le n _
        have hsplit : Queue.held ⟨b :: held, closed⟩ = (b :: held).take n ++ (b :: held).drop n :=
          (List.take_append_drop n (b :: held)).symm
        have h : Serves ⟨b :: held, closed⟩ (.bytes n) _ := Serves.some hne hmost hsplit
        simpa [serve, hn, isWaiting] using h

section Closed

variable {q : Queue} (hclosed : q.closed = true)
include hclosed

theorem write_of_closed (bytes : Bytes) : q.write bytes = .error ⟨.inputClosed, []⟩ := by
  simp [write, hclosed]

theorem close_of_closed : q.close = .error ⟨.inputClosed, []⟩ := by simp [close, hclosed]

theorem endFeed_of_closed (stop : Stop) : (q.endFeed stop).2 = q := by
  cases stop <;> simp [endFeed, close_of_closed hclosed]

theorem feed_of_closed (r : Reader) : (q.feed r).2 = q := by
  fun_induction Queue.feed q r with
  | case1 => rfl
  | case2 q r bytes rest hread hempty ih => exact ih hclosed
  | case3 => rfl
  | case4 q r bytes rest hread hne after hwrite ih => simp [write_of_closed hclosed] at hwrite
  | case5 q r bytes stop rest hread hempty => exact endFeed_of_closed hclosed stop
  | case6 => rfl
  | case7 q r bytes stop rest hread hne after hwrite => simp [write_of_closed hclosed] at hwrite

end Closed

section Open

variable {q : Queue} (hopen : q.closed = false)
include hopen

theorem write_of_open (bytes : Bytes) : q.write bytes = .ok { q with held := q.held ++ bytes } := by
  simp [write, hopen]

theorem close_of_open : q.close = .ok { q with closed := true } := by simp [close, hopen]

theorem endFeed_of_open (stop : Stop) : (q.endFeed stop).2 = { q with closed := true } := by
  cases stop <;> simp [endFeed, close_of_open hopen]

end Open

end Queue

namespace QueueSession

/-- A line of the ledger: a call that has come back, and with what, or a request that has to
wait. -/
inductive Entry
  | wrote (bytes : Bytes) (result : Except Error Nat)
  | closed (result : Except Error Unit)
  | waits (wanted : Queue.Request)
  | read (wanted : Queue.Request) (reading : Reading)
  | measured (length : Nat)

namespace Entry

def accepted : Entry → Bytes
  | wrote bytes (.ok _) => bytes
  | _ => []

def brought : Entry → Bytes
  | read _ (.data bytes _) => bytes
  | _ => []

def isClose : Entry → Bool
  | closed _ => true
  | _ => false

/-- The request that is waiting after a line, given the one before it. -/
def outstanding (before : Option Queue.Request) : Entry → Option Queue.Request
  | waits wanted => some wanted
  | read _ _ => none
  | _ => before

end Entry

def written (log : List Entry) : Bytes := log.flatMap Entry.accepted

def delivered (log : List Entry) : Bytes := log.flatMap Entry.brought

def isClosed (log : List Entry) : Bool := log.any Entry.isClose

def outstanding (log : List Entry) : Option Queue.Request := log.foldl Entry.outstanding none

@[simp] theorem written_append (log more : List Entry) :
    written (log ++ more) = written log ++ written more := by
  simp [written]

@[simp] theorem delivered_append (log more : List Entry) :
    delivered (log ++ more) = delivered log ++ delivered more := by
  simp [delivered]

@[simp] theorem isClosed_append (log more : List Entry) :
    isClosed (log ++ more) = (isClosed log || isClosed more) := by
  simp [isClosed]

@[simp] theorem written_singleton (entry : Entry) : written [entry] = entry.accepted := by
  simp [written]

@[simp] theorem delivered_singleton (entry : Entry) : delivered [entry] = entry.brought := by
  simp [delivered]

@[simp] theorem isClosed_singleton (entry : Entry) : isClosed [entry] = entry.isClose := by
  simp [isClosed]

@[simp] theorem outstanding_concat (log : List Entry) (entry : Entry) :
    outstanding (log ++ [entry]) = entry.outstanding (outstanding log) := by
  simp [outstanding]

/-- The readings that a request can get after what is in the ledger: none for no bytes, some of what
is written and not yet delivered, or the end, once the queue is closed and all is delivered. -/
inductive Answers (log : List Entry) : Queue.Request → Reading → Prop
  | nothing : Answers log (.bytes 0) (.data [] none)
  | some {wanted : Queue.Request} {bytes : Bytes} (hne : bytes ≠ [])
      (hmost : bytes.length ≤ wanted.most) (h : delivered log ++ bytes <+: written log) :
      Answers log wanted (.data bytes none)
  | ended {wanted : Queue.Request} (hwanted : wanted ≠ .bytes 0) (hclosed : isClosed log = true)
      (hall : delivered log = written log) : Answers log wanted Queue.exhausted

/-- What a call comes back with after what is in the ledger. -/
def Entry.Fits (log : List Entry) : Entry → Prop
  | wrote bytes result =>
    result = if isClosed log then .error ⟨.inputClosed, []⟩ else .ok bytes.length
  | closed result => result = if isClosed log then .error ⟨.inputClosed, []⟩ else .ok ()
  | waits wanted => wanted ≠ .bytes 0 ∧ isClosed log = false ∧ delivered log = written log
  | read wanted reading => Answers log wanted reading
  | measured length => (delivered log).length + length = (written log).length

/-- Every line fits those above it. -/
def Regular (log : List Entry) : Prop :=
  ∀ before entry after, log = before ++ entry :: after → entry.Fits before

theorem regular_nil : Regular [] := by
  intro before entry after h
  simp at h

theorem Regular.concat {log : List Entry} (h : Regular log) {entry : Entry}
    (hentry : entry.Fits log) : Regular (log ++ [entry]) := by
  intro before other after heq
  rcases List.eq_nil_or_concat after with rfl | ⟨after, last, rfl⟩
  · obtain ⟨rfl, hlast⟩ := List.append_inj' heq rfl
    obtain rfl : entry = other := by simpa using hlast
    exact hentry
  · have hsplit : log ++ [entry] = (before ++ other :: after) ++ [last] := by simpa using heq
    exact h before other after (List.append_inj' hsplit rfl).1

theorem Regular.written_of_isClosed {log more : List Entry} (h : Regular (log ++ more))
    (hclosed : isClosed log = true) : written (log ++ more) = written log := by
  induction more generalizing log with
  | nil => rw [List.append_nil]
  | cons entry more ih =>
    have hfits : entry.Fits log := h log entry more rfl
    have hentry : entry.accepted = [] := by
      cases entry with
      | wrote bytes result =>
        obtain rfl : result = .error ⟨.inputClosed, []⟩ := by
          simpa [Entry.Fits, hclosed] using hfits
        rfl
      | _ => rfl
    rw [List.append_cons] at h ⊢
    rw [ih h (by simp [hclosed])]
    simp [hentry]

theorem Regular.of_append {log more : List Entry} (h : Regular (log ++ more)) : Regular log := by
  intro before entry after heq
  refine h before entry (after ++ more) ?_
  rw [heq, List.append_assoc, List.cons_append]

section Exhausted

variable {before after : List Entry} {wanted : Queue.Request}
  (h : Regular (before ++ .read wanted Queue.exhausted :: after))
include h

/-- Where the end of the data has been read, the queue is closed, and all that is ever written has
been delivered. -/
theorem Regular.written_of_exhausted :
    isClosed before = true ∧
      written (before ++ .read wanted Queue.exhausted :: after) = delivered before := by
  have hend : Answers before wanted Queue.exhausted := h before _ _ rfl
  generalize hreading : Queue.exhausted = reading at hend
  cases hend with
  | ended _ hclosed hall => exact ⟨hclosed, by rw [hreading, h.written_of_isClosed hclosed, hall]⟩
  | nothing => simp [Queue.exhausted] at hreading
  | some => simp [Queue.exhausted] at hreading

theorem Regular.exhausted_of_exhausted {other : Queue.Request} (hother : other ≠ .bytes 0)
    {reading : Reading} (hmem : .read other reading ∈ after) : reading = Queue.exhausted := by
  obtain ⟨middle, last, rfl⟩ := List.append_of_mem hmem
  rw [← List.cons_append, ← List.append_assoc] at h
  have hfits : Answers (before ++ .read wanted Queue.exhausted :: middle) other reading :=
    h _ _ last rfl
  cases hfits with
  | nothing => exact absurd rfl hother
  | ended => rfl
  | some hne _ hnext =>
    -- There is no room for another byte: all that was ever written has been delivered before.
    rw [h.of_append.written_of_exhausted.2, delivered_append, List.append_assoc] at hnext
    have hlength := hnext.length_le
    simp only [List.length_append] at hlength
    have hpositive := List.length_pos_of_ne_nil hne
    omega

end Exhausted

/-- The ledger is right about a queue. -/
structure Agrees (log : List Entry) (q : Queue) : Prop where
  conserved : delivered log ++ q.held = written log
  closed : q.closed = isClosed log
  regular : Regular log

namespace Agrees

variable {log : List Entry} {q : Queue} (h : Agrees log q)
include h

theorem unchanged {entry : Entry} (hentry : entry.Fits log) (haccepted : entry.accepted = [])
    (hbrought : entry.brought = []) (hclose : entry.isClose = true → q.closed = true) :
    Agrees (log ++ [entry]) q := by
  refine ⟨by simpa [haccepted, hbrought] using h.conserved, ?_, h.regular.concat hentry⟩
  have hclosed := h.closed
  cases hkind : entry.isClose with
  | false => simpa [hkind] using hclosed
  | true => simpa [hkind] using hclose hkind

theorem measured : Agrees (log ++ [.measured q.length]) q := by
  refine h.unchanged ?_ rfl rfl (by simp [Entry.isClose])
  have hlength := congrArg List.length h.conserved
  simpa [Entry.Fits, Queue.length] using hlength

theorem waits (hqueue : q = {}) {wanted : Queue.Request} (hwanted : wanted ≠ .bytes 0) :
    Agrees (log ++ [.waits wanted]) q := by
  have hall : delivered log = written log := by simpa [hqueue] using h.conserved
  have hopen : isClosed log = false := by rw [← h.closed, hqueue]
  exact h.unchanged ⟨hwanted, hopen, hall⟩ rfl rfl (by simp [Entry.isClose])

theorem write_refused (hclosed : q.closed = true) (bytes : Bytes) :
    Agrees (log ++ [.wrote bytes (.error ⟨.inputClosed, []⟩)]) q := by
  refine h.unchanged ?_ rfl rfl (by simp [Entry.isClose])
  simp [Entry.Fits, ← h.closed, hclosed]

theorem close_refused (hclosed : q.closed = true) :
    Agrees (log ++ [.closed (.error ⟨.inputClosed, []⟩)]) q := by
  refine h.unchanged ?_ rfl rfl (fun _ => hclosed)
  simp [Entry.Fits, ← h.closed, hclosed]

theorem wrote (hopen : q.closed = false) (bytes : Bytes) :
    Agrees (log ++ [.wrote bytes (.ok bytes.length)]) { q with held := q.held ++ bytes } := by
  have hlog : isClosed log = false := by rw [← h.closed, hopen]
  refine ⟨?_, ?_, h.regular.concat (by simp [Entry.Fits, hlog])⟩
  · rw [written_append, ← h.conserved]
    simp [Entry.accepted, Entry.brought]
  · simpa [Entry.isClose] using h.closed

theorem shut (hopen : q.closed = false) :
    Agrees (log ++ [.closed (.ok ())]) { q with closed := true } := by
  have hlog : isClosed log = false := by rw [← h.closed, hopen]
  refine ⟨?_, by simp [Entry.isClose], h.regular.concat (by simp [Entry.Fits, hlog])⟩
  simpa [Entry.accepted, Entry.brought] using h.conserved

theorem read {wanted : Queue.Request} {reading : Reading} {after : Queue}
    (hserve : q.serve wanted = some (reading, after)) :
    Agrees (log ++ [.read wanted reading]) after := by
  have hserves := Queue.serves q wanted
  rw [hserve] at hserves
  cases hserves with
  | nothing =>
    exact h.unchanged Answers.nothing rfl rfl (by simp [Entry.isClose])
  | ended hwanted hq =>
    have hall : delivered log = written log := by simpa [hq] using h.conserved
    have hclosed : isClosed log = true := by rw [← h.closed, hq]
    exact h.unchanged (Answers.ended hwanted hclosed hall) rfl rfl (by simp [Entry.isClose])
  | @some _ bytes rest hne hmost hheld =>
    have hconserved : delivered log ++ bytes ++ rest = written log := by
      rw [← h.conserved, hheld, List.append_assoc]
    refine ⟨?_, ?_, h.regular.concat (Answers.some hne hmost ⟨rest, hconserved⟩)⟩
    · simpa [Entry.accepted, Entry.brought] using hconserved
    · simpa [Entry.isClose] using h.closed

end Agrees

end QueueSession

end Sardine
