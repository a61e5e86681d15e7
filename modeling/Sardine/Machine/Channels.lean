import Sardine.Machine.Wait
import Sardine.Input
import Sardine.Output

/-! The two channels of a machine and what instructions do on them.
Everything written so far is flushed before each byte that is read, so that it can be seen before
the machine has to wait. -/
namespace Sardine

structure Channels where
  input : Input := .absent
  output : Output := .absent

inductive Fetched
  | value (v : Cell)
  | failed (e : Error)
  | waiting (w : Wait)
  deriving DecidableEq, Repr

namespace Channels

def inputNote : Bytes := utf8 "input read"

def flushNote : Bytes := utf8 "output flush"

def writeNote : Bytes := utf8 "output write"

def closeNote : Bytes := utf8 "output close"

def ofResult : Wait.Result → Fetched
  | .ok v => .value v
  | .error token => .failed ⟨.invalidNumber token, []⟩

/-- Takes bytes from the input until the instruction is through or has to wait. -/
def receive (w : Wait) (channels : Channels) : Fetched × Channels :=
  match _next : channels.input.next with
  | (.pending, input) => (.waiting w, { channels with input })
  | (.crashed text, input) => (.failed ⟨.crash text, []⟩, { channels with input })
  | (.stopped .endOfData, input) => (ofResult w.atEnd, { channels with input })
  | (.stopped stop, input) => (.failed (stop.toError.wrap inputNote), { channels with input })
  | (.byte b, input) =>
    match w.accept b with
    | .inl result => (ofResult result, { channels with input })
    | .inr more =>
      match channels.output.flush with
      | (.ok (), output) => receive more { input, output }
      | (.failed e, output) => (.failed (e.wrap flushNote), { input, output })
      | (.crashed text, output) => (.failed ⟨.crash text, []⟩, { input, output })
termination_by channels.input.size
decreasing_by exact Input.size_next_lt _next

/-- A reading instruction from its start. Without an input it is at the end of it at once. -/
def fetch (w : Wait) (channels : Channels) : Fetched × Channels :=
  match channels.input with
  | .absent => (ofResult w.atEnd, channels)
  | _ =>
    match channels.output.flush with
    | (.ok (), output) => receive w { channels with output }
    | (.failed e, output) => (.failed (e.wrap flushNote), { channels with output })
    | (.crashed text, output) => (.failed ⟨.crash text, []⟩, { channels with output })

def emit (bytes : Bytes) (channels : Channels) : Option Error × Channels :=
  if channels.output.isAbsent then (none, channels)
  else match channels.output.write bytes with
    | (.done _, output) => (none, { channels with output })
    | (.failed _ e, output) => (some (e.wrap writeNote), { channels with output })
    | (.crashed text, output) => (some ⟨.crash text, []⟩, { channels with output })

/-- Flushes and closes the output. It is closed even if the flush fails, and the error of the flush
comes first. -/
def shut (channels : Channels) : Outcome Unit × Channels :=
  match channels.output.flush with
  | (.crashed text, output) => (.crashed text, { channels with output })
  | (.ok (), output) =>
    match output.close with
    | (.ok (), output) => (.ok (), { channels with output })
    | (.failed e, output) => (.failed (e.wrap closeNote), { channels with output })
    | (.crashed text, output) => (.crashed text, { channels with output })
  | (.failed e, output) =>
    match output.close with
    | (.crashed text, output) => (.crashed text, { channels with output })
    | (_, output) => (.failed (e.wrap flushNote), { channels with output })

end Channels

end Sardine
